import Xv6K210.Vm.Unmap

/-!
# Creating mappings, faults and the heap

`vma_find_address` yields a range that no mapping meets, so `mmap_map_create` keeps
the layout. The three kinds of mappings, page faults and `sys_sbrk` keep the address space, on
every way out.
-/

namespace Xv6K210.Vm

open Xv6K210.Base Prog Function

variable {P O F : Type}

/-! ### The search for an address -/

/-- What the loop of `vma_find_address` yields is page aligned, above the heap, below `top`, and
no mapping meets it. -/
theorem findAddressLoop_spec {sz : Nat} {vmas : Fin nvma → Option (Vma O)} (h : Layout sz vmas)
    {length start : Nat} (hlen : length % pgsize = 0) (rounds top : Nat) (htop : top % pgsize = 0)
    (hbottom : pgroundup sz ≤ top)
    (heq : findAddressLoop vmas (pgroundup sz) length rounds top = some start) (hne : start ≠ 0) :
    start % pgsize = 0 ∧ pgroundup sz ≤ start ∧ start + length ≤ top ∧
      ∀ i v, vmas i = some v → start + length ≤ v.start ∨ v.fin ≤ start := by
  induction rounds generalizing top with
  | zero => cases heq
  | succ rounds ih =>
    rw [findAddressLoop] at heq
    split_ifs at heq with hroom
    swap
    · exact absurd (Option.some.inj heq).symm hne
    cases hover : highestOverlap vmas (top - length) top with
    | none =>
      rw [hover] at heq
      have hstart : top - length = start := Option.some.inj heq
      refine ⟨?_, ?_, ?_, ?_⟩
      · unfold pgsize at *
        omega
      · omega
      · omega
      · intro i v hv
        have hno := highestOverlap_none hover hv
        rw [Vma.overlaps_iff] at hno
        omega
    | some s =>
      rw [hover] at heq
      obtain ⟨i, v, hv, ho, rfl⟩ := highestOverlap_some hover
      rw [Vma.overlaps_iff] at ho
      obtain ⟨h1, h2, h3, h4⟩ := ih v.start (h.ok i v hv).start_mod (h.above i v hv) heq
      exact ⟨h1, h2, by omega, h4⟩

/-- What `vma_find_address` yields is page aligned, above the heap, below `MMAP_TOP`, and no
mapping meets it. -/
theorem vmaFindAddress_spec {sz : Nat} {vmas : Fin nvma → Option (Vma O)} (h : Layout sz vmas)
    {length : Nat} (hlen : length % pgsize = 0) (hne : vmaFindAddress sz vmas length ≠ 0) :
    let start := vmaFindAddress sz vmas length
    start % pgsize = 0 ∧ pgroundup sz ≤ start ∧ start + length ≤ mmapTop ∧
      ∀ i v, vmas i = some v → start + length ≤ v.start ∨ v.fin ≤ start := by
  rcases lt_or_ge mmapTop (pgroundup sz) with hroom | hroom
  · exact absurd (if_pos hroom) hne
  · exact findAddressLoop_spec h hlen (nvma + 1) mmapTop mmapTop_mod hroom
      (findAddressLoop_eq hroom length) hne

/-! ### A new slot -/

/-- The areas of a process only grow when an empty slot is filled. -/
theorem Covered.put {q : Proc P O F} {i : Fin nvma} {v : Vma O} {n : Nat} (h : Covered q n)
    (hi : q.vmas i = none) : Covered { q with vmas := update q.vmas i (some v) } n := by
  rcases h with h | h | ⟨j, v', hv', hc⟩
  · exact .inl h
  · exact .inr (.inl h)
  · refine .inr (.inr ⟨j, v', ?_, hc⟩)
    dsimp only
    rw [update_of_ne, hv']
    rintro rfl
    rw [hi] at hv'
    cases hv'

/-- A mapping with a fault operation goes into an empty slot. -/
theorem Space.put {q : Proc P O F} {u k : Nat → Option Pte} (h : Space q u k) {i : Fin nvma}
    {v : Vma O} (hi : q.vmas i = none) (hok : v.Ok) (habove : pgroundup q.sz ≤ v.start)
    (hfree : ∀ j v', q.vmas j = some v' → v.fin ≤ v'.start ∨ v'.fin ≤ v.start)
    (hops : v.ops = true) :
    Space { q with vmas := update q.vmas i (some v) } u k := by
  refine ⟨h.layout.put hok habove fun j v' _ hv' ↦ hfree j v' hv', ?_, h.mirror, ?_⟩
  · intro n e hn hu
    exact (h.foot n e hn hu).put hi
  · intro j v' hv' hops' n hc
    dsimp only at hv'
    rw [update_apply] at hv'
    split_ifs at hv'
    · cases hv'
      rw [hops] at hops'
      cases hops'
    · exact h.resident j v' hv' hops' n hc

/-- Slots of the process differ in data that the layout does not see. -/
theorem Space.relabel {q : Proc P O F} {u k : Nat → Option Pte} (h : Space q u k) {i : Fin nvma}
    {v v' : Vma O} (hi : q.vmas i = some v) (hstart : v'.start = v.start) (hfin : v'.fin = v.fin)
    (hvalid : v'.validEnd = v.validEnd)
    (hres : v'.ops = false → ∀ n, v.contains (n * pgsize) → (u n).isSome) :
    Space { q with vmas := update q.vmas i (some v') } u k := by
  have hok := h.layout.ok i v hi
  have hcon : ∀ va, v'.contains va = v.contains va := by
    intro va
    unfold Vma.contains
    rw [hstart, hfin]
  have hok' : v'.Ok := by
    constructor
    · rw [hstart]
      exact hok.start_mod
    · rw [hfin]
      exact hok.fin_mod
    · rw [hstart, hfin]
      exact hok.start_lt
    · rw [hfin]
      exact hok.fin_le
    · rw [hvalid, hfin]
      exact hok.valid_le
    · rw [hvalid, hfin]
      exact hok.valid_gt
  refine ⟨h.layout.shrink hi hok' hstart.ge hfin.le, ?_, h.mirror, ?_⟩
  · intro n e hn hu
    rcases h.foot n e hn hu with hc | hc | ⟨j, x, hx, hc⟩
    · exact .inl hc
    · exact .inr (.inl hc)
    · right
      right
      by_cases hji : j = i
      · subst hji
        rw [hi] at hx
        cases hx
        exact ⟨j, v', update_self _ _ _, by rw [hcon, hc]⟩
      · exact ⟨j, x, by dsimp only; rw [update_of_ne hji, hx], hc⟩
  · intro j x hx hops n hc
    dsimp only at hx
    rw [update_apply] at hx
    split_ifs at hx
    · cases hx
      rw [hcon] at hc
      exact hres hops n hc
    · exact h.resident j x hx hops n hc

/-- An entry is stored in an area of the process, with its copy. -/
theorem Space.store {q : Proc P O F} {u k : Nat → Option Pte} (h : Space q u k) {n : Nat} {e : Pte}
    (hc : Covered q n) :
    Space q (update u n (some e)) (update k n (some e.mirror)) := by
  refine ⟨h.layout, ?_, h.mirror.put n e, ?_⟩
  · intro m x hm hx
    rw [update_apply] at hx
    split_ifs at hx with hmn
    · rw [hmn]
      exact hc
    · exact h.foot m x hm hx
  · intro i v hv hops m hm
    rw [update_apply]
    split_ifs
    · rfl
    · exact h.resident i v hv hops m hm

/-- Pages of mappings with a fault operation are unmapped. -/
theorem Space.drop {q : Proc P O F} {u k : Nat → Option Pte} (h : Space q u k) {ns : List Nat}
    (hns : ∀ n ∈ ns, ∀ i v, q.vmas i = some v → v.contains (n * pgsize) → v.ops = true) :
    Space q (fun n ↦ if n ∈ ns then none else u n) (fun n ↦ if n ∈ ns then none else k n) := by
  refine ⟨h.layout, ?_, h.mirror.drop ns, ?_⟩
  · intro n e hn hu
    dsimp only at hu
    split_ifs at hu
    exact h.foot n e hn hu
  · intro i v hv hops n hc
    dsimp only
    rw [if_neg]
    · exact h.resident i v hv hops n hc
    · intro hmem
      rw [hns n hmem i v hv hc] at hops
      cases hops

/-! ### Objects -/

private theorem kbufPages_quiet (w : World P O F) (k : Nat) (acc : List Nat) :
    Ensures (kbufPages k acc) w fun _ w' ↦ Quiet w w' := by
  induction k generalizing w acc with
  | zero =>
    rw [kbufPages, ensures_pure]
    exact .refl w
  | succ k ih =>
    rw [kbufPages]
    apply ensures_quiet_bind (kmalloc_quiet w)
    intro b w1
    simp only [ensures_ite]
    constructor
    · intro _
      apply ensures_quiet_bind (kallocPage_quiet w1)
      intro r w2
      cases r with
      | none =>
        simp only [ensures_bind, ensures_pure]
        exact kfreePages_quiet w2 acc
      | some pa =>
        apply ensures_quiet_bind (zeroPage_quiet w2 pa)
        intro _ w3
        exact ih w3 _
    · intro _
      simp only [ensures_bind, ensures_pure]
      exact kfreePages_quiet w1 acc

/-- `kbuf_create` changes no entry. -/
theorem kbufCreate_quiet (w : World P O F) (size : Nat) :
    Ensures (kbufCreate size) w fun _ w' ↦ Quiet w w' := by
  unfold kbufCreate
  rw [ensures_ite, ensures_pure]
  refine ⟨fun _ ↦ .refl w, fun _ ↦ ?_⟩
  apply ensures_quiet_bind (kmalloc_quiet w)
  intro b w1
  rw [ensures_ite, ensures_pure]
  exact ⟨fun _ ↦ kbufPages_quiet w1 _ _, fun _ ↦ .refl w1⟩

/-- A new object changes no entry. -/
theorem mmapObjectAlloc_quiet (w : World P O F) :
    Ensures mmapObjectAlloc w fun _ w' ↦ Quiet w w' := by
  unfold mmapObjectAlloc
  rw [ensures_bind, ensures_get]
  split
  · simp only [ensures_bind, ensures_set, ensures_pure]
    exact .of_eq rfl rfl rfl rfl rfl
  · simp only [ensures_bind, ensures_set, ensures_pure]
    exact .of_eq rfl rfl rfl rfl rfl
  · rw [ensures_pure]
    exact .refl w

/-! ### Faults -/

/-- What a fault stores lies in an area of the process. -/
theorem NewEntry.covered {q : Proc P O F} {u k : Nat → Option Pte} (h : Space q u k) {n : Nat}
    (hn : UserPage n) {e : Pte} (he : NewEntry q u n e) : Covered q n := by
  cases he with
  | heap pa h => exact .inl h
  | stack pa h => exact .inr (.inl h)
  | mapping pa i v access hv hc ha => exact .inr (.inr ⟨i, v, hv, hc⟩)
  | resolved pa e he hcow => exact h.foot n e hn he

variable [DecidableEq P]

/-- A fault keeps the address space. -/
theorem FaultEff.space {p : P} {n : Nat} {w w' : World P O F} (h : FaultEff p n w w')
    (hn : UserPage n) (hs : SpaceAt w p) : Own p w w' ∧ SpaceAt w' p := by
  cases h with
  | same h => exact ⟨h.tab.own fun _ _ _ ↦ rfl, hs.tab h.tab⟩
  | sync h =>
    refine ⟨h.tab.own fun t _ hk ↦ Leaves.copy_ne _ hk _, ?_⟩
    unfold SpaceAt
    rw [h.core.proc, h.leaf, Leaves.copy_ne _ (by simp), Leaves.copy_same]
    exact ⟨hs.layout, hs.foot, hs.mirror.copy [n], hs.resident⟩
  | store e he h =>
    refine ⟨h.tab.own fun t hu hk ↦ Leaves.both_ne _ _ _ _ hu hk, ?_⟩
    unfold SpaceAt
    rw [h.core.proc, h.leaf, Leaves.both_user, Leaves.both_kern]
    exact Space.store hs (he.covered hs hn)

/-- A slot changes in data that the layout does not see. -/
theorem setVma_relabel {w : World P O F} {p : P} {i : Fin nvma} {v v' : Vma O} (h : SpaceAt w p)
    (hi : (w.proc p).vmas i = some v) (hstart : v'.start = v.start) (hfin : v'.fin = v.fin)
    (hvalid : v'.validEnd = v.validEnd)
    (hres : v'.ops = false → ∀ n, v.contains (n * pgsize) → (w.leaf (.user p) n).isSome) :
    Ensures (setVma p i (some v')) w fun _ w' ↦
      Own p w w' ∧ SpaceAt w' p ∧ (w'.proc p).vmas i = some v' := by
  apply (setVma_proc w p i (some v')).mono
  intro _ w1 h1
  refine ⟨h1.own, .of_slots h1 ?_, ?_⟩
  · simp only [List.not_mem_nil, if_false]
    exact Space.relabel h hi hstart hfin hvalid hres
  · rw [h1.vmas, update_self]

/-! ### Populating -/

section

variable [DecidableEq O]

/-- A round of `mmap_populate`: the page is there afterwards, or nothing changed. -/
theorem populatePage_spec (w : World P O F) (p : P) (v : Vma O) (n : Nat) :
    Ensures (populatePage p v n) w fun b w' ↦
      (b = true ∧ (w.leaf (.user p) n).isSome ∧ Eff w w' w.leaf) ∨
        (b = true ∧ ∃ pa, Eff w w' (w.leaf.both p n ⟨pa, v.perm⟩)) ∨
          (b = false ∧ Eff w w' w.leaf) := by
  unfold populatePage
  apply (walk_spec w (.user p) n).bind
  rintro r w0 ⟨rfl, rfl⟩
  cases hleaf : w0.leaf (.user p) n with
  | some e =>
    rw [ensures_pure]
    exact .inl ⟨rfl, rfl, .refl w0⟩
  | none =>
    apply (vmaFault_eff w0 v n).bind
    intro r w1 h1
    cases r with
    | none =>
      rw [ensures_pure]
      exact .inr (.inr ⟨rfl, h1⟩)
    | some pa =>
      apply (mappages_spec w1 (.user p) n pa v.perm).bind
      rintro b w2 (⟨rfl, -, h2⟩ | ⟨rfl, h2⟩)
      · rw [h1.leaf] at h2
        simp only [if_true, ensures_bind, ensures_ite, ensures_pure]
        apply (vmSyncUserPage_spec w2 p n).mono
        intro b w3 h3
        rw [h2.leaf] at h3
        refine ⟨fun hb ↦ ?_, fun _ ↦ ensures_halt⟩
        rw [if_pos hb] at h3
        exact .inr (.inl ⟨trivial, pa, (h1.trans h2).trans h3⟩)
      · rw [h1.leaf] at h2
        simp only [Bool.false_eq_true, if_false, ensures_bind, ensures_pure]
        apply (kfreePage_quiet w2 pa).mono
        intro _ w3 h3
        have h3' := h3.eff
        rw [h2.leaf] at h3'
        exact .inr (.inr ⟨trivial, (h1.trans h2).trans h3'⟩)

/-- What holds while `mmap_populate` runs; `left` are the pages that it has not visited. -/
structure Populating (p : P) (v : Vma O) (w : World P O F) (left : List Nat)
    (w' : World P O F) : Prop where
  own : Own p w w'
  space : SpaceAt w' p
  proc : w'.proc p = w.proc p
  done : ∀ n ∈ pages v.start v.fin, n ∉ left → (w'.leaf (.user p) n).isSome

/-- `mmap_populate` keeps the address space. -/
theorem mmapPopulate_spec {w : World P O F} {p : P} {i : Fin nvma} {v : Vma O} (h : SpaceAt w p)
    (hi : (w.proc p).vmas i = some v) :
    Ensures (mmapPopulate p i v) w fun _ w' ↦ Own p w w' ∧ SpaceAt w' p := by
  unfold mmapPopulate
  rw [ensures_ite, ensures_pure]
  refine ⟨fun _ ↦ ⟨.refl p w, h⟩, fun hops ↦ ?_⟩
  rw [Bool.not_eq_false] at hops
  have hok := h.layout.ok i v hi
  rw [ensures_bind]
  have hstart : ∀ n ∈ pages v.start v.fin, n ∉ pages v.start v.fin →
      (w.leaf (.user p) n).isSome := fun n hn hn' ↦ absurd hn hn'
  refine (ensures_stopAt (fun left w' ↦ Populating p v w left w' ∧ left ⊆ pages v.start v.fin)
    (fun _ _ w' ↦ Own p w w' ∧ SpaceAt w' p ∧ w'.proc p = w.proc p) ?_
    ⟨⟨.refl p w, h, rfl, hstart⟩, fun _ hn ↦ hn⟩).mono ?_
  · rintro n ns w1 ⟨h1, hsub⟩
    apply (populatePage_spec w1 p v n).mono
    rintro b w2 (⟨rfl, hthere, h2⟩ | ⟨rfl, pa, h2⟩ | ⟨rfl, h2⟩)
    · rw [if_pos rfl]
      refine ⟨⟨h1.own.trans (h2.tab.own fun _ _ _ ↦ rfl), h1.space.tab h2.tab, ?_, ?_⟩, ?_⟩
      · rw [h2.core.proc, h1.proc]
      · intro m hm hleft
        rw [h2.leaf]
        by_cases hmn : m = n
        · rw [hmn]
          exact hthere
        · exact h1.done m hm (by simp [hmn, hleft])
      · exact fun m hm ↦ hsub (List.mem_cons_of_mem n hm)
    · rw [if_pos rfl]
      have hc : Covered (w1.proc p) n := by
        rw [h1.proc]
        exact .inr (.inr ⟨i, v, hi, hok.mem_pages.mp (hsub List.mem_cons_self)⟩)
      refine ⟨⟨h1.own.trans (h2.tab.own fun t hu hk ↦ Leaves.both_ne _ _ _ _ hu hk), ?_, ?_, ?_⟩,
        ?_⟩
      · unfold SpaceAt
        rw [h2.core.proc, h2.leaf, Leaves.both_user, Leaves.both_kern]
        exact Space.store h1.space hc
      · rw [h2.core.proc, h1.proc]
      · intro m hm hleft
        rw [h2.leaf, Leaves.both_user, update_apply]
        split_ifs with hmn
        · rfl
        · exact h1.done m hm (by simp [hmn, hleft])
      · exact fun m hm ↦ hsub (List.mem_cons_of_mem n hm)
    · rw [if_neg (by simp)]
      refine ⟨h1.own.trans (h2.tab.own fun _ _ _ ↦ rfl), h1.space.tab h2.tab, ?_⟩
      rw [h2.core.proc, h1.proc]
  · intro r w1 h1
    cases r with
    | none =>
      obtain ⟨h1, -⟩ := h1
      simp only [ensures_bind, ensures_pure]
      have hi1 : (w1.proc p).vmas i = some v := by rw [h1.proc, hi]
      refine (setVma_relabel h1.space hi1 (by rfl) (by rfl) (by rfl) ?_).mono ?_
      · intro _ n hc
        exact h1.done n (hok.mem_pages.mpr hc) (by simp)
      · rintro _ w2 ⟨hown, hspace, -⟩
        exact ⟨h1.own.trans hown, hspace⟩
    | some n =>
      obtain ⟨ys, ⟨zs, hsplit⟩, hown, hspace, hproc⟩ := h1
      have hn : n ∈ pages v.start v.fin := by simp [hsplit]
      rw [mem_pages hok.start_mod] at hn
      simp only [ensures_bind, ensures_pure]
      apply (vmaUnmapPages_spec w1 p _ _).mono
      intro _ w2 h2
      refine ⟨hown.trans (h2.tab.own fun t hu hk ↦ Leaves.unmap_ne _ _ _ hu hk), ?_⟩
      unfold SpaceAt
      rw [h2.core.proc, h2.leaf, Leaves.unmap_user, Leaves.unmap_kern]
      apply Space.drop hspace
      intro m hm j v' hv' hc'
      rw [mem_pages hok.start_mod] at hm
      have hc : v.contains (m * pgsize) := Vma.contains_iff.mpr ⟨hm.1, hm.2.trans hn.2⟩
      rw [hproc] at hv'
      have hji := h.layout.unique hv' hi hc' hc
      subst hji
      rw [hi] at hv'
      cases hv'
      exact hops

/-! ### The three kinds of mappings -/

variable [DecidableEq F]

omit [DecidableEq P] in
/-- A new object with its file changes no entry. -/
theorem mmapObjectCreate_tab (w : World P O F) (type : VmaType) (file : Option F)
    (flags size : Nat) :
    Ensures (mmapObjectCreate type file flags size) w fun _ w' ↦ Tab w w' w.leaf := by
  have hset : ∀ (w : World P O F) (o : O) (x : MmapObject F),
      Ensures (setObj o (some x) >>= fun _ ↦ pure (some o)) w fun _ w' ↦ Tab w w' w.leaf := by
    intro w o x
    simp only [ensures_bind, ensures_pure]
    exact setObj_tab w o _
  unfold mmapObjectCreate
  apply ensures_tab_bind ((mmapObjectAlloc_quiet w).mono fun _ _ h ↦ h.tab)
  intro r w1
  cases r with
  | none =>
    rw [ensures_pure]
    exact .refl w1
  | some o =>
    cases type with
    | file =>
      cases file with
      | none => exact ensures_halt
      | some f =>
        apply ensures_tab_bind (filedup_tab w1 f)
        intro _ w2
        exact hset w2 o _
    | anon =>
      dsimp only
      rw [ensures_ite]
      refine ⟨fun _ ↦ ?_, fun _ ↦ hset w1 o _⟩
      apply ensures_tab_bind ((kmalloc_quiet w1).mono fun _ _ h ↦ h.tab)
      intro b w2
      rw [ensures_ite, ensures_pure]
      exact ⟨fun _ ↦ hset w2 o _, fun _ ↦ .refl w2⟩
    | kbuf =>
      apply ensures_tab_bind ((kbufCreate_quiet w1 size).mono fun _ _ h ↦ h.tab)
      intro r w2
      cases r with
      | none =>
        rw [ensures_pure]
        exact .refl w2
      | some pas =>
        cases file with
        | none => exact ensures_halt
        | some f =>
          apply ensures_tab_bind (filedup_tab w2 f)
          intro _ w3
          exact hset w3 o _

omit [DecidableEq P] [DecidableEq O] [DecidableEq F] in
/-- A new mapping of a positive length is in order. -/
theorem Vma.fresh_ok {type : VmaType} {start length prot flags offset : Nat} {object : Option O}
    (hstart : start % pgsize = 0) (hlen : 0 < length) (hfin : start + pgroundup length ≤ mmapTop) :
    (Vma.fresh type start length prot flags object offset).Ok := by
  have hmod := pgroundup_mod length
  have hup := le_pgroundup length
  have hup' := pgroundup_lt length
  unfold Vma.fresh
  constructor
  · exact hstart
  · dsimp only
    unfold pgsize at *
    omega
  · dsimp only
    omega
  · exact hfin
  · dsimp only
    omega
  · dsimp only
    omega

omit [DecidableEq O] [DecidableEq F] in
/-- `mmap_map_create` fills an empty slot with a mapping that is apart from all others, or does
nothing. -/
theorem mmapMapCreate_spec {w : World P O F} {p : P} (addr length prot flags : Nat)
    (type : VmaType) (object : Option O) (offset : Nat) (h : SpaceAt w p) :
    Ensures (mmapMapCreate p addr length prot flags type object offset) w fun r w' ↦
      (r = none ∧ w' = w) ∨ ∃ i start,
        r = some start ∧ (w.proc p).vmas i = none ∧ prot < 8 ∧
          (prot.testBit 1 → prot.testBit 0) ∧
          Slots p w w' (update (w.proc p).vmas i
            (some (.fresh type start length prot flags object offset))) [] ∧ SpaceAt w' p := by
  unfold mmapMapCreate
  simp only [ensures_bind, ensures_get, ensures_ite, ensures_pure]
  have hsame : True ∧ True := ⟨trivial, trivial⟩
  refine ⟨fun _ ↦ .inl hsame, fun hargs ↦ ⟨fun _ ↦ .inl hsame, fun hprot ↦
    ⟨fun _ ↦ .inl hsame, fun hwr ↦ ⟨fun _ ↦ .inl hsame, fun _ ↦ ?_⟩⟩⟩⟩
  cases hfree : vmaFindFree (w.proc p).vmas with
  | none =>
    rw [ensures_pure]
    exact .inl ⟨rfl, rfl⟩
  | some i =>
    simp only [ensures_bind, ensures_ite, ensures_pure]
    refine ⟨fun _ ↦ .inl hsame, fun hne ↦ ?_⟩
    have hi := vmaFindFree_none hfree
    obtain ⟨hmod, h2, h3, h4⟩ := vmaFindAddress_spec h.layout (pgroundup_mod length) hne
    apply (setVma_proc w p i _).mono
    intro _ w1 h1
    refine .inr ⟨i, _, rfl, hi, by omega, ?_, h1, .of_slots h1 ?_⟩
    · intro hbit
      by_contra hread
      exact hwr ⟨hbit, hread⟩
    · simp only [List.not_mem_nil, if_false]
      exact Space.put h hi (Vma.fresh_ok hmod (by omega) h3) h2 h4 rfl

omit [DecidableEq P] [DecidableEq O] [DecidableEq F] in
/-- Nothing changed that the address space sees. -/
theorem SpaceAt.stays {w w' : World P O F} {p : P} (h : SpaceAt w p) (h' : Tab w w' w.leaf) :
    Own p w w' ∧ SpaceAt w' p :=
  ⟨h'.own fun _ _ _ ↦ rfl, h.tab h'⟩

/-- An object is made, then a mapping of it; without the mapping the object goes. -/
theorem mapObject_spec {w : World P O F} {p : P} (addr length prot flags : Nat) (type : VmaType)
    (file : Option F) (offset : Nat) (h : SpaceAt w p) :
    Ensures (do
      match ← mmapObjectCreate type file flags 0 with
      | none => pure none
      | some o =>
        match ← mmapMapCreate p addr length prot flags type (some o) offset with
        | none =>
          mmapObjectPut o
          pure none
        | some start => pure (some start)) w fun _ w' ↦ Own p w w' ∧ SpaceAt w' p := by
  apply (mmapObjectCreate_tab w type file flags 0).bind
  intro r w1 h1
  have hspace1 := h.stays h1
  cases r with
  | none =>
    rw [ensures_pure]
    exact hspace1
  | some o =>
    apply (mmapMapCreate_spec addr length prot flags type (some o) offset hspace1.2).bind
    rintro r w2 (⟨rfl, rfl⟩ | ⟨i, start, rfl, -, -, -, h2, hspace2⟩)
    · simp only [ensures_bind, ensures_pure]
      apply (mmapObjectPut_tab w2 o).mono
      intro _ w3 h3
      have hspace3 := hspace1.2.stays h3
      exact ⟨hspace1.1.trans hspace3.1, hspace3.2⟩
    · rw [ensures_pure]
      exact ⟨hspace1.1.trans h2.own, hspace2⟩

private theorem vmaMapAnon_spec {w : World P O F} {p : P} (addr length prot flags : Nat)
    (h : SpaceAt w p) :
    Ensures (vmaMapAnon p addr length prot flags) w fun _ w' ↦ Own p w w' ∧ SpaceAt w' p := by
  unfold vmaMapAnon
  rw [ensures_ite, ensures_pure]
  exact ⟨fun _ ↦ ⟨.refl p w, h⟩, fun _ ↦ mapObject_spec addr length prot flags .anon none 0 h⟩

private theorem vmaMapFile_spec {w : World P O F} {p : P} (addr length prot flags : Nat) (f : F)
    (offset : Nat) (h : SpaceAt w p) :
    Ensures (vmaMapFile p addr length prot flags f offset) w fun _ w' ↦
      Own p w w' ∧ SpaceAt w' p := by
  unfold vmaMapFile
  simp only [ensures_bind, ensures_get]
  rw [ensures_ite, ensures_ite, ensures_ite, ensures_ite, ensures_pure]
  have hsame : Own p w w ∧ SpaceAt w p := ⟨.refl p w, h⟩
  refine ⟨fun _ ↦ hsame, fun _ ↦ ⟨fun _ ↦ hsame, fun _ ↦ ⟨fun _ ↦ hsame, fun _ ↦
    ⟨fun _ ↦ hsame, fun _ ↦ ?_⟩⟩⟩⟩
  exact mapObject_spec addr length prot flags .file (some f) offset h

/-- A call of `vma_unmap` after a change. -/
theorem unmapAfter_spec {w w1 : World P O F} {p : P} (start length : Nat) (hown : Own p w w1)
    (h : SpaceAt w1 p) :
    Ensures (do
      let _ ← vmaUnmap p start length
      pure (none : Option Nat)) w1 fun _ w' ↦ Own p w w' ∧ SpaceAt w' p := by
  simp only [ensures_bind, ensures_pure]
  apply (vmaUnmap_spec start length h).mono
  rintro _ w2 ⟨hown2, hspace2⟩
  exact ⟨hown.trans hown2, hspace2⟩

private theorem mapDeviceObject_spec {w : World P O F} {p : P} {i : Fin nvma} {v : Vma O}
    (start length : Nat) (f : F) (offset : Nat) (populate : Bool) (h : SpaceAt w p)
    (hi : (w.proc p).vmas i = some v) (hops : v.ops = true) :
    Ensures (mapDeviceObject p i v start length f offset populate) w fun _ w' ↦
      Own p w w' ∧ SpaceAt w' p := by
  unfold mapDeviceObject
  refine (setVma_relabel h hi (by rfl) (by rfl) (by rfl) (by simp [hops])).bind ?_
  rintro _ w1 ⟨hown1, hspace1, hi1⟩
  apply (mmapObjectCreate_tab w1 .kbuf (some f) _ _).bind
  intro r w2 h2
  obtain ⟨hown2, hspace2⟩ := hspace1.stays h2
  have hown := hown1.trans hown2
  cases r with
  | none => exact unmapAfter_spec start length hown hspace2
  | some o =>
    have hi2 : (w2.proc p).vmas i = some { v with populate := populate } := by rw [h2.proc, hi1]
    refine (setVma_relabel hspace2 hi2 (by rfl) (by rfl) (by rfl) (by simp [hops])).bind ?_
    rintro _ w3 ⟨hown3, hspace3, hi3⟩
    rw [ensures_ite, ensures_bind, ensures_pure]
    refine ⟨fun _ ↦ ?_, fun _ ↦ ⟨hown.trans hown3, hspace3⟩⟩
    apply (mmapPopulate_spec hspace3 hi3).mono
    rintro b w4 ⟨hown4, hspace4⟩
    rw [ensures_ite, ensures_pure]
    have hown' := (hown.trans hown3).trans hown4
    exact ⟨fun _ ↦ ⟨hown', hspace4⟩, fun _ ↦ unmapAfter_spec start length hown' hspace4⟩

private theorem vmaMapDevice_spec {w : World P O F} {p : P} (addr length prot flags : Nat) (f : F)
    (d : DevMmap) (offset : Nat) (h : SpaceAt w p) :
    Ensures (vmaMapDevice p addr length prot flags f d offset) w fun _ w' ↦
      Own p w w' ∧ SpaceAt w' p := by
  unfold vmaMapDevice
  simp only [ensures_bind, ensures_get]
  rw [ensures_ite, ensures_ite, ensures_ite, ensures_pure]
  have hsame : Own p w w ∧ SpaceAt w p := ⟨.refl p w, h⟩
  refine ⟨fun _ ↦ hsame, fun _ ↦ ⟨fun _ ↦ hsame, fun _ ↦ ⟨fun _ ↦ hsame, fun _ ↦ ?_⟩⟩⟩
  apply (mmapMapCreate_spec addr length prot flags .kbuf none offset h).bind
  rintro r w1 (⟨rfl, rfl⟩ | ⟨i, start, rfl, -, -, -, h1, hspace1⟩)
  · rw [ensures_pure]
    exact hsame
  · simp only [ensures_bind, ensures_get]
    split
    · exact unmapAfter_spec start length h1.own hspace1
    · rename_i j hj
      split
      · rw [ensures_pure]
        exact ⟨h1.own, hspace1⟩
      · rename_i v hv
        rw [ensures_ite]
        refine ⟨fun _ ↦ unmapAfter_spec start length h1.own hspace1, fun hc ↦ ?_⟩
        split
        · exact unmapAfter_spec start length h1.own hspace1
        · have hops : v.ops = true := by
            by_contra hops
            exact hc (.inl (by simpa using hops))
          apply (mapDeviceObject_spec start length f offset _ hspace1 hv hops).mono
          rintro _ w2 ⟨hown2, hspace2⟩
          exact ⟨h1.own.trans hown2, hspace2⟩

/-- `sys_mmap` keeps the address space. -/
theorem sysMmap_spec {w : World P O F} {p : P} (addr : Nat) (length : Int) (prot flags : Nat)
    (fd offset : Int) (h : SpaceAt w p) :
    Ensures (sysMmap p addr length prot flags fd offset) w fun _ w' ↦
      Own p w w' ∧ SpaceAt w' p := by
  unfold sysMmap
  simp only [ensures_bind, ensures_get]
  rw [ensures_ite, ensures_ite, ensures_pure]
  have hsame : Own p w w ∧ SpaceAt w p := ⟨.refl p w, h⟩
  refine ⟨fun _ ↦ hsame, fun _ ↦ ⟨fun _ ↦ ?_, fun _ ↦ ?_⟩⟩
  · rw [ensures_ite, ensures_pure]
    exact ⟨fun _ ↦ hsame, fun _ ↦ vmaMapAnon_spec addr _ prot flags h⟩
  · split
    · split
      · rw [ensures_pure]
        exact hsame
      · split
        · exact vmaMapDevice_spec addr _ prot flags _ _ _ h
        · exact vmaMapFile_spec addr _ prot flags _ _ h
    · rw [ensures_pure]
      exact hsame

/-- `sys_munmap` keeps the address space. -/
theorem sysMunmap_spec {w : World P O F} {p : P} (addr : Nat) (length : Int) (h : SpaceAt w p) :
    Ensures (sysMunmap p addr length) w fun _ w' ↦ Own p w w' ∧ SpaceAt w' p := by
  unfold sysMunmap
  rw [ensures_ite, ensures_pure]
  exact ⟨fun _ ↦ ⟨.refl p w, h⟩, fun _ ↦ vmaUnmap_spec addr _ h⟩

end

/-! ### The size of the heap -/

omit [DecidableEq P] in
/-- A larger process covers more. -/
theorem Covered.mono {q : Proc P O F} {n sz : Nat} (h : Covered q n) (hsz : q.sz ≤ sz) :
    Covered { q with sz := sz } n := by
  rcases h with h | h | h
  · exact .inl (h.trans_le (pgroundup_mono hsz))
  · exact .inr (.inl h)
  · exact .inr (.inr h)

omit [DecidableEq P] in
/-- The heap grows to the limit at most. -/
theorem Space.grow {q : Proc P O F} {u k : Nat → Option Pte} (h : Space q u k) {sz : Nat}
    (hsz : q.sz ≤ sz) (hlimit : sz ≤ vmaHeapLimit q.vmas) : Space { q with sz := sz } u k :=
  ⟨h.layout.le_heapLimit hlimit, fun n e hn hu ↦ (h.foot n e hn hu).mono hsz, h.mirror,
    h.resident⟩

omit [DecidableEq P] in
/-- The heap shrinks and the pages that it leaves are unmapped. -/
theorem Space.shrink {q : Proc P O F} {u k : Nat → Option Pte} (h : Space q u k) {sz : Nat}
    (hsz : sz ≤ q.sz) :
    let ns := pages (pgroundup sz) (pgroundup q.sz)
    Space { q with sz := sz } (fun n ↦ if n ∈ ns then none else u n)
      (fun n ↦ if n ∈ ns then none else k n) := by
  intro ns
  have hmem : ∀ n, n ∈ ns ↔ pgroundup sz ≤ n * pgsize ∧ n * pgsize < pgroundup q.sz :=
    fun n ↦ mem_pages (pgroundup_mod sz)
  refine ⟨h.layout.mono hsz, ?_, h.mirror.drop ns, ?_⟩
  · intro n e hn hu
    dsimp only at hu
    split_ifs at hu with hns
    rw [hmem] at hns
    rcases h.foot n e hn hu with hc | hc | hc
    · refine .inl ?_
      change n * pgsize < pgroundup sz
      omega
    · exact .inr (.inl hc)
    · exact .inr (.inr hc)
  · intro i v hv hops n hc
    have habove := h.layout.above i v hv
    have hn := Vma.contains_iff.mp hc
    dsimp only
    rw [if_neg]
    · exact h.resident i v hv hops n hc
    · rw [hmem]
      omega

/-- The size of a process changes. -/
theorem setSz_spec (w : World P O F) (p : P) (sz : Nat) :
    Ensures (setProc p fun q ↦ { q with sz := sz }) w fun _ w' ↦
      w'.proc = update w.proc p { w.proc p with sz := sz } ∧
        (∀ t, w'.there t = w.there t) ∧ w'.leaf = w.leaf := by
  unfold setProc
  rw [ensures_modify]
  exact ⟨rfl, fun _ ↦ rfl, rfl⟩

/-- `sys_sbrk` keeps the address space. -/
theorem sysSbrk_spec {w : World P O F} {p : P} (n : Int) (h : SpaceAt w p) :
    Ensures (sysSbrk p n) w fun _ w' ↦ Own p w w' ∧ SpaceAt w' p := by
  have hset : ∀ (w w1 : World P O F) (sz : Nat), Own p w w1 →
      Space { w1.proc p with sz := sz } (w1.leaf (.user p)) (w1.leaf (.kern p)) →
      Ensures (setProc p fun q ↦ { q with sz := sz }) w1 fun _ w' ↦
        Own p w w' ∧ SpaceAt w' p := by
    intro w w1 sz hown hspace
    apply (setSz_spec w1 p sz).mono
    rintro _ w2 ⟨hproc, hthere, hleaf⟩
    constructor
    · apply hown.trans
      refine ⟨?_, ?_, hthere, fun t _ _ ↦ by rw [hleaf]⟩
      · intro q hq
        rw [hproc, update_of_ne hq]
      · rw [hproc]
        simp
    · unfold SpaceAt
      rw [hproc, hleaf, update_self]
      exact hspace
  unfold sysSbrk
  simp only [ensures_bind, ensures_get, ensures_ite, ensures_pure]
  have hsame : Own p w w ∧ SpaceAt w p := ⟨.refl p w, h⟩
  refine ⟨fun _ ↦ ⟨fun _ ↦ hsame, fun hroom ↦ ?_⟩, fun _ ↦ ⟨fun _ ↦ hsame, fun _ ↦ ?_⟩⟩
  · apply hset w w _ (.refl p w)
    apply Space.grow h
    · omega
    · omega
  · apply (uvmdealloc_spec w (.kern p) _ _ false).mono
    rintro _ w1 ⟨-, h1⟩
    apply (uvmdealloc_spec w1 (.user p) _ _ true).mono
    rintro sz w2 ⟨hsz, h2⟩
    rw [h1.leaf] at h2
    have h12 := h1.trans h2
    apply hset w w2 sz (h12.tab.own fun t hu hk ↦ Leaves.unmap_ne _ _ _ hu hk)
    rw [h12.core.proc, h12.leaf]
    change Space _ (w.leaf.unmap p _ (.user p)) (w.leaf.unmap p _ (.kern p))
    rw [Leaves.unmap_user, Leaves.unmap_kern]
    have hle : sz ≤ (w.proc p).sz := by omega
    rw [min_eq_right (by omega)] at hsz
    rw [← hsz]
    exact Space.shrink h hle

end Xv6K210.Vm
