import Xv6K210.Slab.Invariant

/-!
# The objects of the slab allocator

What the calls under way have in their hands agrees with the heap, and every step keeps
both. So live objects are apart, the counts of every slab are right, and a page goes back
to the page allocator exactly when its last object is freed.
-/

namespace Xv6K210.Slab

open Base Alloc Function

variable {T : Type}

/-- The request that a call is serving and has no object for yet. -/
def Pc.request : Pc → Option (Fin 8 × Nat)
  | .paging i size => some (i, size)
  | .fresh i _ size => some (i, size)
  | _ => none

/-- What the calls have in their hands. -/
structure Calls (pc : T → Pc) (live : Nat → Option Nat) (place : Nat → Place T) : Prop where
  fresh : ∀ t i a, (∃ n, pc t = .fresh i a n) ↔ place a = .fresh t i
  leaving : ∀ t a, pc t = .releasing a ↔ place a = .leaving t
  object : ∀ t i x, (pc t).object = some (i, x) →
    live x ≠ none ∧ place (pgrounddown x) = .bucket i
  apart : ∀ t u i j x, (pc t).object = some (i, x) → (pc u).object = some (j, x) → t = u
  request : ∀ t i n, (pc t).request = some (i, n) → 0 < n ∧ n ≤ slabSizes i
  running : ∀ t, pc t ≠ .panicked

variable [DecidableEq T]

namespace Calls

variable {pc : T → Pc} {live live' : Nat → Option Nat} {place place' : Nat → Place T}

/-- One call goes on. What the others have stays where it is. -/
theorem move (h : Calls pc live place) {t : T} {new : Pc}
    (hfresh : ∀ i a, (∃ n, new = .fresh i a n) ↔ place' a = .fresh t i)
    (hleaving : ∀ a, new = .releasing a ↔ place' a = .leaving t)
    (hobject : ∀ i x, new.object = some (i, x) → live' x ≠ none ∧
      place' (pgrounddown x) = .bucket i ∧ ∀ u ≠ t, ∀ j, (pc u).object ≠ some (j, x))
    (hrequest : ∀ i n, new.request = some (i, n) → 0 < n ∧ n ≤ slabSizes i)
    (hrunning : new ≠ .panicked)
    (hplace : ∀ u ≠ t, ∀ a, (∀ i, place' a = .fresh u i ↔ place a = .fresh u i) ∧
      (place' a = .leaving u ↔ place a = .leaving u))
    (hothers : ∀ u ≠ t, ∀ i x, (pc u).object = some (i, x) →
      live' x ≠ none ∧ place' (pgrounddown x) = .bucket i) :
    Calls (update pc t new) live' place' := by
  have hcases : ∀ u, u = t ∧ update pc t new u = new ∨
      u ≠ t ∧ update pc t new u = pc u := fun u ↦ by
    by_cases hu : u = t
    · exact .inl ⟨hu, by rw [hu, update_self]⟩
    · exact .inr ⟨hu, update_of_ne hu ..⟩
  refine ⟨fun u i a ↦ ?_, fun u a ↦ ?_, fun u i x hx ↦ ?_, fun u v i j x hx hy ↦ ?_,
    fun u i n hn ↦ ?_, fun u ↦ ?_⟩
  · rcases hcases u with ⟨rfl, hu⟩ | ⟨hne, hu⟩
    · rw [hu]
      exact hfresh i a
    · rw [hu, (hplace u hne a).1 i]
      exact h.fresh u i a
  · rcases hcases u with ⟨rfl, hu⟩ | ⟨hne, hu⟩
    · rw [hu]
      exact hleaving a
    · rw [hu, (hplace u hne a).2]
      exact h.leaving u a
  · rcases hcases u with ⟨rfl, hu⟩ | ⟨hne, hu⟩
    · rw [hu] at hx
      exact ⟨(hobject i x hx).1, (hobject i x hx).2.1⟩
    · rw [hu] at hx
      exact hothers u hne i x hx
  · rcases hcases u with ⟨rfl, hu⟩ | ⟨hne, hu⟩
    · rcases hcases v with ⟨rfl, _⟩ | ⟨hne', hv⟩
      · rfl
      · rw [hu] at hx
        rw [hv] at hy
        exact absurd hy ((hobject i x hx).2.2 v hne' j)
    · rcases hcases v with ⟨rfl, hv⟩ | ⟨_, hv⟩
      · rw [hu] at hx
        rw [hv] at hy
        exact absurd hx ((hobject j x hy).2.2 u hne i)
      · rw [hu] at hx
        rw [hv] at hy
        exact h.apart u v i j x hx hy
  · rcases hcases u with ⟨_, hu⟩ | ⟨_, hu⟩
    · rw [hu] at hn
      exact hrequest i n hn
    · rw [hu] at hn
      exact h.request u i n hn
  · rcases hcases u with ⟨_, hu⟩ | ⟨_, hu⟩
    · rw [hu]
      exact hrunning
    · rw [hu]
      exact h.running u

/-- A call goes on without touching a page or an object. -/
theorem quiet (h : Calls pc live place) {t : T} {new : Pc}
    (hfresh : ∀ i a n, new ≠ .fresh i a n ∧ pc t ≠ .fresh i a n)
    (hleaving : ∀ a, new ≠ .releasing a ∧ pc t ≠ .releasing a)
    (hobject : ∀ i x, new.object = some (i, x) → live x ≠ none ∧
      place (pgrounddown x) = .bucket i ∧ ∀ u ≠ t, ∀ j, (pc u).object ≠ some (j, x))
    (hrequest : ∀ i n, new.request = some (i, n) → 0 < n ∧ n ≤ slabSizes i)
    (hrunning : new ≠ .panicked) : Calls (update pc t new) live place := by
  refine h.move (fun i a ↦ ?_) (fun a ↦ ?_) hobject hrequest hrunning
    (fun _ _ _ ↦ ⟨fun _ ↦ Iff.rfl, Iff.rfl⟩) fun u _ i x hx ↦ h.object u i x hx
  · rw [← h.fresh t i a]
    exact ⟨fun ⟨n, hn⟩ ↦ absurd hn (hfresh i a n).1, fun ⟨n, hn⟩ ↦ absurd hn (hfresh i a n).2⟩
  · rw [← h.leaving t a]
    exact ⟨fun ha ↦ absurd ha (hleaving a).1, fun ha ↦ absurd ha (hleaving a).2⟩

/-- A call takes an object that was free. -/
theorem taken (h : Calls pc live place) {t : T} {i : Fin 8} {node : Nat} (n : Nat)
    (hfree : live node = none) (hnode : place' (pgrounddown node) = .bucket i)
    (hfresh : ∀ j a, place' a ≠ .fresh t j) (hleaving : ∀ a, place' a ≠ .leaving t)
    (hplace : ∀ u ≠ t, ∀ a, (∀ j, place' a = .fresh u j ↔ place a = .fresh u j) ∧
      (place' a = .leaving u ↔ place a = .leaving u))
    (hbucket : ∀ a j, place a = .bucket j → place' a = .bucket j) :
    Calls (update pc t (.filling i node)) (update live node (some n))
      place' := by
  refine h.move (fun j a ↦ ⟨nofun, fun ha ↦ absurd ha (hfresh j a)⟩)
    (fun a ↦ ⟨nofun, fun ha ↦ absurd ha (hleaving a)⟩) (fun j x hx ↦ ?_) nofun nofun hplace
    fun u hu j x hx ↦ ?_
  · cases hx
    rw [update_self]
    exact ⟨nofun, hnode, fun u _ j hj ↦ (h.object u j node hj).1 hfree⟩
  · obtain ⟨hlive, hx'⟩ := h.object u j x hx
    have hne : x ≠ node := by
      rintro rfl
      exact hlive hfree
    rw [update_of_ne hne]
    exact ⟨hlive, hbucket _ _ hx'⟩

/-- A call has put its object back. -/
theorem given (h : Calls pc live place) {t : T} {i : Fin 8} {p : Nat} {new : Pc}
    (hpc : pc t = .freeing i p) (hfresh : ∀ j a n, new ≠ .fresh j a n)
    (hleaving : ∀ a, new = .releasing a ↔ place' a = .leaving t)
    (hobject : new.object = none) (hrequest : new.request = none) (hrunning : new ≠ .panicked)
    (hplace : ∀ u a, (∀ j, place' a = .fresh u j ↔ place a = .fresh u j))
    (hplace' : ∀ u ≠ t, ∀ a, place' a = .leaving u ↔ place a = .leaving u)
    (hbucket : ∀ x j, update live p none x ≠ none →
      place (pgrounddown x) = .bucket j → place' (pgrounddown x) = .bucket j) :
    Calls (update pc t new) (update live p none) place' := by
  refine h.move (fun j a ↦ ?_) hleaving (fun j x hx ↦ ?_) (fun j n hn ↦ ?_) hrunning
    (fun u hu a ↦ ⟨hplace u a, hplace' u hu a⟩) fun u hu j x hx ↦ ?_
  · rw [hplace, ← h.fresh t j a, hpc]
    exact ⟨fun ⟨n, hn⟩ ↦ absurd hn (hfresh j a n), nofun⟩
  · rw [hobject] at hx
    cases hx
  · rw [hrequest] at hn
    cases hn
  · obtain ⟨hlive, hx'⟩ := h.object u j x hx
    have hne : x ≠ p := by
      rintro rfl
      exact hu (h.apart u t j i x hx (by rw [hpc]; rfl))
    have hlive' : update live p none x ≠ none := by
      rw [update_of_ne hne]
      exact hlive
    exact ⟨hlive', hbucket x j hlive' hx'⟩

end Calls

namespace State

/-- The invariant of the allocator. -/
structure Inv (z : Zone) (s : State T) (slabs : Fin 8 → List Nat) (free : Nat → List Nat)
    (place : Nat → Place T) : Prop where
  heap : HeapInv z s.heap s.live s.held slabs free place
  used : Used s.live place
  calls : Calls s.pc s.live place

/-- The invariant, for some lists and places. -/
def Sound (z : Zone) (s : State T) : Prop := ∃ slabs free place, s.Inv z slabs free place

variable {z : Zone} {s : State T} {slabs : Fin 8 → List Nat} {free : Nat → List Nat}
  {place : Nat → Place T}

/-- The region of `kmalloc` takes an object. -/
theorem Inv.take {t : T} {i : Fin 8} {a n : Nat}
    (hheap : HeapInv z s.heap s.live s.held slabs free place)
    (hused : ∀ j b, b ≠ a → place b = .bucket j → ∃ x ∈ slots j b, s.live x ≠ none)
    (ha : place a = .bucket i) (hcount : 0 < s.heap.cell.freeCount a) (hn : 0 < n)
    (hsize : n ≤ slabSizes i)
    (hcalls : ∀ node ∈ slots i a, s.live node = none →
      Calls (update s.pc t (.filling i node)) (update s.live node (some n))
        place) : (s.take t i a n).Sound z := by
  obtain ⟨hslot, hfree, free', hheap'⟩ := hheap.take ha hcount hn hsize
  refine ⟨slabs, free', place, hheap', fun j b hb ↦ ?_, hcalls _ hslot hfree⟩
  change ∃ x ∈ slots j b, update s.live (s.heap.cell.freeList a) (some n) x ≠ none
  by_cases hba : b = a
  · rw [hba, ha] at hb
    cases hb
    refine ⟨s.heap.cell.freeList a, by rw [hba]; exact hslot, ?_⟩
    rw [update_self]
    exact nofun
  · obtain ⟨x, hx, hlive⟩ := hused j b hba hb
    have hne : x ≠ s.heap.cell.freeList a := by
      rintro rfl
      exact hlive hfree
    exact ⟨x, hx, by rwa [update_of_ne hne]⟩

omit [DecidableEq T] in
/-- No page that is on a list or elsewhere is in the hands of an idle call. -/
theorem Inv.no_page (h : s.Inv z slabs free place) {t : T}
    (hfresh : ∀ i a n, s.pc t ≠ .fresh i a n) (hleaving : ∀ a, s.pc t ≠ .releasing a) :
    (∀ i a, place a ≠ .fresh t i) ∧ ∀ a, place a ≠ .leaving t := by
  constructor
  · intro i a ha
    obtain ⟨n, hn⟩ := (h.calls.fresh t i a).mpr ha
    exact hfresh i a n hn
  · intro a ha
    exact hleaving a ((h.calls.leaving t a).mpr ha)

/-- `kmalloc` finds a slab with a free object. -/
theorem Inv.found (h : s.Inv z slabs free place) {t : T} {i : Fin 8} {a n fuel : Nat}
    (hpc : s.pc t = .idle) (hn : n ≠ 0) (hindex : slabBucketIndex n = some i)
    (hfirst : s.heap.firstFree fuel (s.heap.slabs i) = some a) (ha : a ≠ 0) :
    (s.take t i a n).Sound z := by
  obtain ⟨hmem, hcount⟩ :=
    (HeapInv.firstFree_spec (h.heap.listed i) fuel a hfirst).resolve_left ha
  have hplace := (h.heap.onList i a).mp hmem
  have hmod := (h.heap.page a (by rw [hplace]; exact nofun)).1
  have hno := h.no_page (t := t) (by rw [hpc]; exact nofun) (by rw [hpc]; exact nofun)
  refine Inv.take h.heap (fun j b _ hb ↦ h.used j b hb) hplace hcount (Nat.pos_of_ne_zero hn)
    (le_slabSizes hindex) fun node hslot hfree ↦ ?_
  refine h.calls.taken n hfree ?_ hno.1 hno.2 (fun _ _ _ ↦ ⟨fun _ ↦ Iff.rfl, Iff.rfl⟩)
    fun _ _ hb ↦ hb
  rw [pgrounddown_slot hmod hslot]
  exact hplace

/-- `kmalloc` puts its new page on the list and takes the first object. -/
theorem Inv.insert (h : s.Inv z slabs free place) {t : T} {i : Fin 8} {a n : Nat}
    (hpc : s.pc t = .fresh i a n) :
    (State.take { s with heap := s.heap.link i a } t i a n).Sound z := by
  have hplace := (h.calls.fresh t i a).mp ⟨n, hpc⟩
  have hne : place a ≠ .elsewhere := by
    rw [hplace]
    exact nofun
  have hmod := (h.heap.page a hne).1
  have hreq := h.calls.request t i n (by rw [hpc]; rfl)
  have hheap := h.heap.link hplace
  have hself : update place a (.bucket i) a = .bucket i := update_self ..
  have hcarved := hheap.carved i a (.inl hself)
  have hfull : 0 < (s.heap.link i a).cell.freeCount a := by
    -- no object of a page that is not on a list is live
    have hnone : ((slots i a).filter fun x ↦ (s.live x).isSome) = [] := by
      rw [List.filter_eq_nil_iff]
      intro x hx
      rw [h.heap.not_live hmod (by rw [hplace]; exact nofun) hx]
      decide
    have hlen := hcarved.length_add
    rw [hnone] at hlen
    have hpos := count_pos i
    rw [hcarved.freeCount]
    exact lt_of_lt_of_eq hpos hlen.symm
  have hother : ∀ b, b ≠ a → update place a (.bucket i) b = place b :=
    fun b hb ↦ update_of_ne hb ..
  refine Inv.take (s := { s with heap := s.heap.link i a }) hheap (fun j b hb hj ↦ ?_) hself hfull
    hreq.1 hreq.2 fun node hslot hfree ↦ ?_
  · rw [hother b hb] at hj
    exact h.used j b hj
  · refine h.calls.taken n hfree ?_ (fun j b hb ↦ ?_) (fun b hb ↦ ?_) (fun u hu b ↦ ?_)
      fun b j hb ↦ ?_
    · rw [pgrounddown_slot hmod hslot]
      exact hself
    · by_cases hba : b = a
      · rw [hba, hself] at hb
        cases hb
      · rw [hother b hba] at hb
        obtain ⟨m, hm⟩ := (h.calls.fresh t j b).mpr hb
        rw [hpc] at hm
        cases hm
        exact hba rfl
    · by_cases hba : b = a
      · rw [hba, hself] at hb
        cases hb
      · rw [hother b hba] at hb
        have hm := (h.calls.leaving t b).mpr hb
        rw [hpc] at hm
        cases hm
    · by_cases hba : b = a
      · rw [hba, hself, hplace]
        refine ⟨fun j ↦ ⟨nofun, fun hj ↦ ?_⟩, nofun, nofun⟩
        cases hj
        exact absurd rfl hu
      · rw [hother b hba]
        exact ⟨fun _ ↦ Iff.rfl, Iff.rfl⟩
    · have hba : b ≠ a := by
        rintro rfl
        rw [hplace] at hb
        cases hb
      rw [hother b hba]
      exact hb

omit [DecidableEq T] in
/-- The object of a call of `kfree` and its slab. -/
theorem Inv.freeing (h : s.Inv z slabs free place) {t : T} {i : Fin 8} {p : Nat}
    (hpc : s.pc t = .freeing i p) :
    s.live p ≠ none ∧ place (pgrounddown p) = .bucket i ∧ p ∈ slots i (pgrounddown p) := by
  obtain ⟨hlive, hplace⟩ := h.calls.object t i p (by rw [hpc]; rfl)
  obtain ⟨j, hj, hslot⟩ := h.heap.live_slot hlive
  rw [hplace] at hj
  cases hj
  exact ⟨hlive, hplace, hslot⟩

omit [DecidableEq T] in
/-- After `kfree` has put the object back the heap is in order, and the slab is full exactly
when none of its objects is live. -/
theorem Inv.given (h : s.Inv z slabs free place) {t : T} {i : Fin 8} {p : Nat}
    (hpc : s.pc t = .freeing i p) :
    (∃ free', HeapInv z (s.give p).heap (s.give p).live s.held slabs free' place) ∧
      ((s.give p).Full (pgrounddown p) ↔
        ∀ x ∈ slots i (pgrounddown p), (s.give p).live x = none) := by
  obtain ⟨hlive, hplace, hslot⟩ := h.freeing hpc
  have hheap := h.heap.give hplace hslot hlive
  have hcarved := hheap.carved i _ (.inl hplace)
  rw [update_self] at hcarved
  refine ⟨⟨_, hheap⟩, ?_⟩
  have hcount : (s.give p).heap.cell.freeCount (pgrounddown p) = _ := hcarved.freeCount
  have htotal : (s.give p).heap.cell.total (pgrounddown p) = _ := hcarved.total
  have hlt := hcarved.length_lt_iff
  have hle := hcarved.length_le
  rw [Full, hcount, htotal]
  constructor
  · intro hfull x hx
    by_contra hne
    have hlt' := hlt.mpr ⟨x, hx, hne⟩
    omega
  · intro hnone
    by_contra hne
    obtain ⟨x, hx, hx'⟩ := hlt.mp (by omega)
    exact hx' (hnone x hx)

omit [DecidableEq T] in
/-- The other slabs keep their live objects. -/
theorem Inv.used_give (h : s.Inv z slabs free place) {p b : Nat} {j : Fin 8}
    (hb : place b = .bucket j) (hne : b ≠ pgrounddown p) :
    ∃ x ∈ slots j b, (s.give p).live x ≠ none := by
  obtain ⟨x, hx, hlive⟩ := h.used j b hb
  have hmod := (h.heap.page b (by rw [hb]; exact nofun)).1
  have hxp : x ≠ p := by
    rintro rfl
    exact hne (pgrounddown_slot hmod hx).symm
  refine ⟨x, hx, ?_⟩
  change update s.live p none x ≠ none
  rwa [update_of_ne hxp]

/-- `kfree` of an object that is not the last one of its slab. -/
theorem Inv.freeMore (h : s.Inv z slabs free place) {t : T} {i : Fin 8} {p : Nat}
    (hpc : s.pc t = .freeing i p) (hfull : ¬ (s.give p).Full (pgrounddown p)) :
    ((s.give p).goto t .idle).Sound z := by
  obtain ⟨hlive, hplace, hslot⟩ := h.freeing hpc
  obtain ⟨⟨free', hheap⟩, hfull'⟩ := h.given hpc
  refine ⟨slabs, free', place, hheap, fun j b hb ↦ ?_, ?_⟩
  · by_cases hbp : b = pgrounddown p
    · rw [hbp, hplace] at hb
      cases hb
      rw [hfull'] at hfull
      push Not at hfull
      rw [hbp]
      exact hfull
    · exact h.used_give hb hbp
  · exact h.calls.given hpc nofun
      (fun a ↦ ⟨nofun, fun ha ↦ by
        have hm := (h.calls.leaving t a).mpr ha
        rw [hpc] at hm
        cases hm⟩) rfl rfl nofun (fun _ _ _ ↦ Iff.rfl) (fun _ _ _ ↦ Iff.rfl) fun _ _ _ hb ↦ hb

/-- `kfree` of the last object of a slab: the page is on no list any more. -/
theorem Inv.freeLast (h : s.Inv z slabs free place) {t : T} {i : Fin 8} {p fuel : Nat}
    {prev : Link} (hpc : s.pc t = .freeing i p) (hfull : (s.give p).Full (pgrounddown p))
    (hfind : (s.give p).heap.findLink i (pgrounddown p) fuel .head = some prev) :
    (s.give p).heap.load i prev ≠ 0 ∧
      (State.goto { s.give p with heap := (s.give p).heap.unlink i (pgrounddown p) prev }
        t (.releasing (pgrounddown p))).Sound z := by
  obtain ⟨hlive, hplace, hslot⟩ := h.freeing hpc
  obtain ⟨⟨free', hheap⟩, hfull'⟩ := h.given hpc
  have hnone := hfull'.mp hfull
  have hmem := (h.heap.onList i _).mpr hplace
  have hne := h.heap.page_ne_zero (a := pgrounddown p) (by rw [hplace]; exact nofun)
  have hlisted : Listed 0 (s.give p).heap.cell.next ((s.give p).heap.load i .head)
    (slabs i) := hheap.listed i
  obtain ⟨hload, hin⟩ := HeapInv.findLink_spec hlisted hmem fuel hfind
  have hother : ∀ b, b ≠ pgrounddown p →
      update place (pgrounddown p) (.leaving t) b = place b :=
    fun b hb ↦ update_of_ne hb ..
  have hself : update place (pgrounddown p) (.leaving t) (pgrounddown p) = .leaving t :=
    update_self ..
  have hcalls : Calls (update s.pc t (.releasing (pgrounddown p)))
      (update s.live p none)
      (update place (pgrounddown p) (.leaving t)) := by
    refine h.calls.given hpc nofun (fun a ↦ ?_) rfl rfl nofun (fun u a j ↦ ?_)
      (fun u hu a ↦ ?_) fun x j hx hb ↦ ?_
    · by_cases ha : a = pgrounddown p
      · rw [ha, hself]
        exact ⟨fun _ ↦ rfl, fun _ ↦ rfl⟩
      · rw [hother a ha, ← h.calls.leaving t a, hpc]
        refine ⟨fun heq ↦ ?_, nofun⟩
        cases heq
        exact absurd rfl ha
    · by_cases ha : a = pgrounddown p
      · rw [ha, hself, hplace]
        exact ⟨nofun, nofun⟩
      · rw [hother a ha]
    · by_cases ha : a = pgrounddown p
      · rw [ha, hself, hplace]
        refine ⟨fun heq ↦ ?_, nofun⟩
        cases heq
        exact absurd rfl hu
      · rw [hother a ha]
    · have hxp : pgrounddown x ≠ pgrounddown p := by
        intro heq
        obtain ⟨k, hk, hx'⟩ := hheap.live_slot hx
        rw [heq, hplace] at hk
        cases hk
        rw [heq] at hx'
        exact hx (hnone x hx')
      rw [hother _ hxp]
      exact hb
  refine ⟨by rw [hload]; exact hne, _, free', _,
    hheap.unlinked t hplace hnone hload hin, fun j b hb ↦ ?_, hcalls⟩
  have hbp : b ≠ pgrounddown p := by
    rintro rfl
    rw [hself] at hb
    cases hb
  rw [hother b hbp] at hb
  have hlive' := h.used_give hb hbp
  exact hlive'

omit [DecidableEq T] in
/-- The tests of `kfree` let live objects pass. -/
theorem Inv.kfreeIndex (h : s.Inv z slabs free place) {p : Nat} {i : Fin 8}
    (hplace : place (pgrounddown p) = .bucket i) (hslot : p ∈ slots i (pgrounddown p)) :
    s.heap.cell.kfreeIndex z p = some i := by
  have hpage := h.heap.page (pgrounddown p) (by rw [hplace]; exact nofun)
  exact (h.heap.carved i _ (.inl hplace)).kfreeIndex hpage.1 hpage.2.1 hslot

/-- `kmalloc` cuts the page that it got. -/
theorem Inv.page (h : s.Inv z slabs free place) {t : T} {i : Fin 8} {n p : Nat}
    (hpc : s.pc t = .paging i n) (hp : z.manages p) (hheld : s.held (4096 * p) = false) :
    State.Sound z { (s.setCell (s.heap.cell.newSlab (4096 * p) (slabSizes i))).goto t
        (.fresh i (4096 * p) n) with
      held := update s.held (4096 * p) true } := by
  have hplace := h.heap.elsewhere_of_not_held hheld
  have hno := h.no_page (t := t) (by rw [hpc]; exact nofun) (by rw [hpc]; exact nofun)
  have hreq := h.calls.request t i n (by rw [hpc]; rfl)
  have hself : update place (4096 * p) (.fresh t i) (4096 * p) = .fresh t i :=
    update_self ..
  have hother : ∀ b, b ≠ 4096 * p →
      update place (4096 * p) (.fresh t i) b = place b :=
    fun b hb ↦ update_of_ne hb ..
  have hbucket : ∀ j b, update place (4096 * p) (.fresh t i) b = .bucket j ↔
      place b = .bucket j := fun j b ↦ by
    by_cases hb : b = 4096 * p
    · rw [hb, hself, hplace]
      exact ⟨nofun, nofun⟩
    · rw [hother b hb]
  have hcalls : Calls (update s.pc t (.fresh i (4096 * p) n)) s.live
      (update place (4096 * p) (.fresh t i)) := by
    refine h.calls.move (fun j a ↦ ?_) (fun a ↦ ?_) nofun (fun j m hm ↦ ?_) nofun
      (fun u hu a ↦ ?_) fun u _ j x hx ↦ ?_
    · by_cases ha : a = 4096 * p
      · rw [ha, hself]
        constructor
        · rintro ⟨m, hm⟩
          cases hm
          rfl
        · intro hj
          cases hj
          exact ⟨n, rfl⟩
      · rw [hother a ha]
        constructor
        · rintro ⟨m, hm⟩
          cases hm
          exact absurd rfl ha
        · exact fun hj ↦ absurd hj (hno.1 j a)
    · by_cases ha : a = 4096 * p
      · rw [ha, hself]
        exact ⟨nofun, nofun⟩
      · rw [hother a ha]
        exact ⟨nofun, fun hj ↦ absurd hj (hno.2 a)⟩
    · cases hm
      exact hreq
    · by_cases ha : a = 4096 * p
      · rw [ha, hself, hplace]
        refine ⟨fun j ↦ ⟨fun hj ↦ ?_, nofun⟩, nofun, nofun⟩
        cases hj
        exact absurd rfl hu
      · rw [hother a ha]
        exact ⟨fun _ ↦ Iff.rfl, Iff.rfl⟩
    · obtain ⟨hlive, hx'⟩ := h.calls.object u j x hx
      exact ⟨hlive, (hbucket j _).mpr hx'⟩
  exact ⟨slabs, _, _, h.heap.newPage t i hp hheld, fun j b hb ↦ h.used j b ((hbucket j b).mp hb),
    hcalls⟩

/-- A page goes back to the page allocator. -/
theorem Inv.release (h : s.Inv z slabs free place) {t : T} {a : Nat}
    (hpc : s.pc t = .releasing a) :
    State.Sound z { s.goto t .idle with held := update s.held a false } := by
  have hplace := (h.calls.leaving t a).mp hpc
  have hself : update place a .elsewhere a = .elsewhere := update_self ..
  have hother : ∀ b, b ≠ a → update place a .elsewhere b = place b :=
    fun b hb ↦ update_of_ne hb ..
  have hbucket : ∀ j b, update place a .elsewhere b = .bucket j ↔ place b = .bucket j :=
    fun j b ↦ by
      by_cases hb : b = a
      · rw [hb, hself, hplace]
        exact ⟨nofun, nofun⟩
      · rw [hother b hb]
  have hcalls : Calls (update s.pc t .idle) s.live
      (update place a .elsewhere) := by
    refine h.calls.move (fun j b ↦ ?_) (fun b ↦ ?_) nofun nofun nofun (fun u hu b ↦ ?_)
      fun u _ j x hx ↦ ?_
    · refine ⟨nofun, fun hj ↦ ?_⟩
      by_cases hb : b = a
      · rw [hb, hself] at hj
        cases hj
      · rw [hother b hb] at hj
        obtain ⟨m, hm⟩ := (h.calls.fresh t j b).mpr hj
        rw [hpc] at hm
        cases hm
    · refine ⟨nofun, fun hj ↦ ?_⟩
      by_cases hb : b = a
      · rw [hb, hself] at hj
        cases hj
      · rw [hother b hb] at hj
        have hm := (h.calls.leaving t b).mpr hj
        rw [hpc] at hm
        cases hm
        exact absurd rfl hb
    · by_cases hb : b = a
      · rw [hb, hself, hplace]
        refine ⟨fun j ↦ ⟨nofun, nofun⟩, nofun, fun hj ↦ ?_⟩
        cases hj
        exact absurd rfl hu
      · rw [hother b hb]
        exact ⟨fun _ ↦ Iff.rfl, Iff.rfl⟩
    · obtain ⟨hlive, hx'⟩ := h.calls.object u j x hx
      exact ⟨hlive, (hbucket j _).mpr hx'⟩
  exact ⟨slabs, free, _, h.heap.dropPage hplace,
    fun j b hb ↦ h.used j b ((hbucket j b).mp hb), hcalls⟩

/-- Every step keeps the invariant. -/
theorem Sound.step {s' : State T} {a : Act T} (h : s.Sound z) (ha : Step z s a s') :
    s'.Sound z := by
  obtain ⟨slabs, free, place, h⟩ := h
  cases ha with
  | zero hpc => exact ⟨slabs, free, place, h⟩
  | large hpc hsize hindex => exact ⟨slabs, free, place, h⟩
  | found fuel hpc hsize hindex hfirst hslab => exact h.found hpc hsize hindex hfirst hslab
  | @notFound t size i fuel hpc hsize hindex hfirst =>
    refine ⟨slabs, free, place, h.heap, h.used, h.calls.quiet ?_ ?_ nofun (fun j n hn ↦ ?_) nofun⟩
    · rw [hpc]
      exact fun _ _ _ ↦ ⟨nofun, nofun⟩
    · rw [hpc]
      exact fun _ ↦ ⟨nofun, nofun⟩
    · cases hn
      exact ⟨Nat.pos_of_ne_zero hsize, le_slabSizes hindex⟩
  | noPage hpc =>
    refine ⟨slabs, free, place, h.heap, h.used, h.calls.quiet ?_ ?_ nofun nofun nofun⟩
    · rw [hpc]
      exact fun _ _ _ ↦ ⟨nofun, nofun⟩
    · rw [hpc]
      exact fun _ ↦ ⟨nofun, nofun⟩
  | page hpc hp hheld => exact h.page hpc hp hheld
  | insert hpc => exact h.insert hpc
  | @ret t i node hpc =>
    obtain ⟨hlive, hplace⟩ := h.calls.object t i node (by rw [hpc]; rfl)
    obtain ⟨j, hj, hslot⟩ := h.heap.live_slot hlive
    rw [hplace] at hj
    cases hj
    refine ⟨slabs, free, place, h.heap.inside hplace hslot hlive fun b hb ↦
      Cells.memset_of_not _ _ hb, h.used, h.calls.quiet ?_ ?_ nofun nofun nofun⟩
    · rw [hpc]
      exact fun _ _ _ ↦ ⟨nofun, nofun⟩
    · rw [hpc]
      exact fun _ ↦ ⟨nofun, nofun⟩
  | kfreeNull hpc => exact ⟨slabs, free, place, h⟩
  | @kfree t ptr i hpc hlive hown hptr hindex =>
    obtain ⟨j, hj, hslot⟩ := h.heap.live_slot hlive
    rw [h.kfreeIndex hj hslot] at hindex
    cases hindex
    refine ⟨slabs, free, place, h.heap, h.used, h.calls.quiet ?_ ?_ (fun k x hx ↦ ?_) nofun nofun⟩
    · rw [hpc]
      exact fun _ _ _ ↦ ⟨nofun, nofun⟩
    · rw [hpc]
      exact fun _ ↦ ⟨nofun, nofun⟩
    · cases hx
      exact ⟨hlive, hj, fun u _ k ↦ hown u k⟩
  | @kfreePanic t ptr hpc hlive hown hptr hindex =>
    obtain ⟨j, hj, hslot⟩ := h.heap.live_slot hlive
    rw [h.kfreeIndex hj hslot] at hindex
    cases hindex
  | @freePanic t ptr i hpc hcount =>
    obtain ⟨hlive, hplace, hslot⟩ := h.freeing hpc
    have hcarved := h.heap.carved i _ (.inl hplace)
    have hlt := hcarved.length_lt_iff.mpr ⟨ptr, hslot, hlive⟩
    rw [hcarved.total, hcarved.freeCount] at hcount
    omega
  | freeMore hpc hcount hfull => exact h.freeMore hpc hfull
  | freeLast fuel hpc hcount hfull hfind hprev => exact (h.freeLast hpc hfull hfind).2
  | freeMissing fuel hpc hcount hfull hfind hprev =>
    exact absurd hprev (h.freeLast hpc hfull hfind).1
  | release hpc => exact h.release hpc
  | @store ptr n a v hlive hle hlt =>
    have hlive' : s.live ptr ≠ none := by
      rw [hlive]
      exact nofun
    obtain ⟨i, hplace, hslot, _, hn⟩ := h.heap.live ptr n hlive
    exact ⟨slabs, free, place, h.heap.inside hplace hslot hlive' fun b hb ↦
      Cells.set_of_ne _ _ (by omega), h.used, h.calls⟩
  | @scribble a v hheld =>
    refine ⟨slabs, free, place, h.heap.outside (h.heap.elsewhere_of_not_held hheld) fun b hb ↦
      Cells.set_of_ne _ _ ?_, h.used, h.calls⟩
    rintro rfl
    exact hb rfl

/-! ## Runs -/

/-- The state after `kminit`, with any memory. -/
def start (c : Cells) : State T where
  heap := ⟨c, fun _ ↦ 0⟩
  pc := fun _ ↦ .idle
  held := fun _ ↦ false
  live := fun _ ↦ none

omit [DecidableEq T] in
/-- The heap before the first call is sound. -/
theorem Sound.start (z : Zone) (c : Cells) : (State.start c : State T).Sound z := by
  have hheap : HeapInv z ⟨c, fun _ ↦ 0⟩ (fun _ ↦ none) (fun _ ↦ false) (fun _ ↦ [])
      (fun _ ↦ []) (fun _ ↦ (.elsewhere : Place T)) := by
    refine ⟨fun _ ↦ rfl, fun _ ↦ List.nodup_nil, fun i a ↦ ?_, fun i a h ↦ ?_, fun a h ↦ ?_,
      nofun⟩
    · exact ⟨fun h ↦ absurd h List.not_mem_nil, nofun⟩
    · exact absurd rfl (HeapInv.not_elsewhere h)
    · exact absurd rfl h
  have hcalls : Calls (fun _ : T ↦ Pc.idle) (fun _ ↦ none)
      (fun _ ↦ (.elsewhere : Place T)) := by
    refine ⟨fun t i a ↦ ⟨?_, nofun⟩, fun t a ↦ ⟨nofun, nofun⟩, nofun, nofun, nofun, nofun⟩
    rintro ⟨n, hn⟩
    cases hn
  exact ⟨_, _, _, hheap, nofun, hcalls⟩

/-- Every run keeps the heap sound. -/
theorem Sound.run {s' : State T} {as : List (Act T)} (hrun : Runs (Step z) s as s')
    (h : s.Sound z) : s'.Sound z :=
  hrun.invariant _ (fun _ _ _ h ha ↦ h.step ha) h

/-- The size of the object at an address, from the header of its page. -/
def objSize (s : State T) (p : Nat) : Nat := s.heap.cell.objSize (pgrounddown p)

/-- The addresses in a page that are live objects. -/
def liveIn (s : State T) (a : Nat) : List Nat :=
  ((List.range 4096).map fun d ↦ a + d).filter fun x ↦ (s.live x).isSome

/-- The page is on the list of a bucket. -/
def OnList (s : State T) (i : Fin 8) (a : Nat) : Prop :=
  ∃ l, Listed 0 s.heap.cell.next (s.heap.slabs i) l ∧ a ∈ l

omit [DecidableEq T]

/-- A slab is on the list of its bucket. -/
theorem Inv.onList (h : s.Inv z slabs free place) (i : Fin 8) (a : Nat) :
    s.OnList i a ↔ place a = .bucket i := by
  rw [← h.heap.onList]
  constructor
  · rintro ⟨l, hl, ha⟩
    rwa [hl.unique (h.heap.listed i)] at ha
  · exact fun ha ↦ ⟨slabs i, h.heap.listed i, ha⟩

/-- A live object, its class and what the header says. -/
theorem Inv.object (h : s.Inv z slabs free place) {p n : Nat} (hp : s.live p = some n) :
    ∃ i, place (pgrounddown p) = .bucket i ∧ p ∈ slots i (pgrounddown p) ∧
      s.objSize p = slabSizes i ∧ n ≤ slabSizes i := by
  obtain ⟨i, hplace, hslot, _, hn⟩ := h.heap.live p n hp
  exact ⟨i, hplace, hslot, (h.heap.carved i _ (.inl hplace)).objSize, hn⟩

/-- Two live objects do not overlap. -/
theorem Inv.disjoint (h : s.Inv z slabs free place) {p q : Nat} (hp : s.live p ≠ none)
    (hq : s.live q ≠ none) (hne : p ≠ q) :
    p + s.objSize p ≤ q ∨ q + s.objSize q ≤ p := by
  obtain ⟨n, hn⟩ := Option.ne_none_iff_exists'.mp hp
  obtain ⟨m, hm⟩ := Option.ne_none_iff_exists'.mp hq
  obtain ⟨i, hpi, hslotp, hsizep, _⟩ := h.object hn
  obtain ⟨j, hqj, hslotq, hsizeq, _⟩ := h.object hm
  rw [hsizep, hsizeq]
  by_cases hpage : pgrounddown p = pgrounddown q
  · rw [hpage, hqj] at hpi
    cases hpi
    rw [hpage] at hslotp
    exact slot_apart hslotp hslotq hne
  · have hbp := slot_bounds hslotp
    have hbq := slot_bounds hslotq
    have hmodp := pgrounddown_mod p
    have hmodq := pgrounddown_mod q
    omega

/-- The live objects of a slab are the live ones among its slots. -/
theorem Inv.length_liveIn (h : s.Inv z slabs free place) {i : Fin 8} {a : Nat}
    (ha : place a = .bucket i) :
    (s.liveIn a).length = ((slots i a).filter fun x ↦ (s.live x).isSome).length := by
  have hmod := (h.heap.page a (by rw [ha]; exact nofun)).1
  have hinj : Function.Injective fun d ↦ a + d := fun _ _ heq ↦ Nat.add_left_cancel heq
  have hnodup : (s.liveIn a).Nodup := (List.nodup_range.map hinj).filter _
  refine List.Perm.length_eq ?_
  rw [List.perm_ext_iff_of_nodup hnodup ((nodup_slots i a).filter _)]
  intro x
  unfold liveIn
  rw [List.mem_filter, List.mem_filter]
  constructor
  · rintro ⟨hx, hlive⟩
    obtain ⟨d, hd, rfl⟩ := List.mem_map.mp hx
    have hd' := List.mem_range.mp hd
    have hround : pgrounddown (a + d) = a := by
      unfold pgrounddown
      omega
    obtain ⟨j, hj, hslot⟩ := h.heap.live_slot (Option.isSome_iff_ne_none.mp hlive)
    rw [hround, ha] at hj
    cases hj
    rw [hround] at hslot
    exact ⟨hslot, hlive⟩
  · rintro ⟨hx, hlive⟩
    have hb := slot_bounds hx
    have hpos := slabSizes_pos i
    refine ⟨List.mem_map.mpr ⟨x - a, List.mem_range.mpr ?_, ?_⟩, hlive⟩
    · omega
    · omega

/-- The region of `kfree` keeps the page for `kfree_page` exactly when no object of the page
is live any more. -/
theorem Inv.last_iff [DecidableEq T] (h : s.Inv z slabs free place) {t : T} {p : Nat}
    {s' : State T} (ha : Step z s (.free t p) s') :
    s'.pc t = .releasing (pgrounddown p) ↔
      ∀ q, pgrounddown q = pgrounddown p → s'.live q = none := by
  have hinv : s'.Sound z := Sound.step ⟨slabs, free, place, h⟩ ha
  obtain ⟨slabs', free', place', h'⟩ := hinv
  cases ha with
  | @freePanic t ptr i hpc hcount => exact absurd (update_self ..) (h'.calls.running t)
  | freeMissing fuel hpc hcount hfull hfind hprev =>
    exact absurd (update_self ..) (h'.calls.running t)
  | @freeMore t ptr i hpc hcount hfull =>
    obtain ⟨hlive, hplace, hslot⟩ := h.freeing hpc
    rw [(h.given hpc).2] at hfull
    have hself : ((s.give p).goto t .idle).pc t = .idle := update_self ..
    rw [hself]
    refine ⟨nofun, fun hnone ↦ absurd (fun x hx ↦ hnone x ?_) hfull⟩
    exact pgrounddown_slot (pgrounddown_mod p) hx
  | @freeLast t ptr i prev fuel hpc hcount hfull hfind hprev =>
    obtain ⟨hlive, hplace, hslot⟩ := h.freeing hpc
    have hself := update_self (f := s.pc) t (Pc.releasing (pgrounddown p))
    refine ⟨fun _ q hq ↦ ?_, fun _ ↦ hself⟩
    have hleave := (h'.calls.leaving t (pgrounddown p)).mp hself
    by_contra hlive'
    obtain ⟨j, hj, _⟩ := h'.heap.live_slot hlive'
    rw [hq, hleave] at hj
    cases hj

/-- In every state that a run reaches: each live object is aligned, lies in its page after the
header and has the size asked for; live objects do not overlap; the counts of each slab are
right; the slabs on the lists are the pages of the live objects, and a page is kept for
`kfree_page` exactly when its last object is freed; and requests for nothing or too much
return 0 without effect. No call panics. -/
theorem slab_sound [DecidableEq T] {c : Cells} {as : List (Act T)} {s : State T}
    (hrun : Runs (Step z) (State.start c) as s) :
    (∀ p n, s.live p = some n → p % 16 = 0 ∧ pgrounddown p + slabDataOffset ≤ p ∧
      p + s.objSize p ≤ pgrounddown p + 4096 ∧ n ≤ s.objSize p) ∧
    (∀ p q, s.live p ≠ none → s.live q ≠ none → p ≠ q →
      p + s.objSize p ≤ q ∨ q + s.objSize q ≤ p) ∧
    (∀ i a, s.OnList i a → ∃ l, Listed 0 s.heap.cell (s.heap.cell.freeList a) l ∧
      s.heap.cell.freeCount a = l.length ∧
      s.heap.cell.freeCount a + (s.liveIn a).length = s.heap.cell.total a) ∧
    (∀ a, (∃ i, s.OnList i a) ↔ ∃ p, s.live p ≠ none ∧ pgrounddown p = a) ∧
    (∀ t p s', Step z s (.free t p) s' → (s'.pc t = .releasing (pgrounddown p) ↔
      ∀ q, pgrounddown q = pgrounddown p → s'.live q = none)) ∧
    (∀ t size r s', size = 0 ∨ 2048 < size → Step z s (.kmalloc t size r) s' →
      r = some 0 ∧ s' = s) ∧
    ∀ t, s.pc t ≠ .panicked := by
  obtain ⟨slabs, free, place, h⟩ := Sound.run hrun (Sound.start z c)
  refine ⟨fun p n hp ↦ ?_, fun p q hp hq hne ↦ h.disjoint hp hq hne, fun i a ha ↦ ?_,
    fun a ↦ ⟨?_, ?_⟩, fun t p s' ha ↦ h.last_iff ha, fun t size r s' hsize ha ↦ ?_,
    h.calls.running⟩
  · obtain ⟨i, _, hslot, hobj, hn⟩ := h.object hp
    have hb := slot_bounds hslot
    rw [hobj, slabDataOffset_eq]
    exact ⟨slot_aligned (pgrounddown_mod p) hslot, hb.1, hb.2, hn⟩
  · have hplace := (h.onList i a).mp ha
    have hcarved := h.heap.carved i a (.inl hplace)
    refine ⟨free a, hcarved.listed, hcarved.freeCount, ?_⟩
    rw [hcarved.freeCount, hcarved.total, h.length_liveIn hplace]
    exact hcarved.length_add
  · rintro ⟨i, ha⟩
    have hplace := (h.onList i a).mp ha
    obtain ⟨x, hx, hlive⟩ := h.used i a hplace
    have hmod := (h.heap.page a (by rw [hplace]; exact nofun)).1
    exact ⟨x, hlive, pgrounddown_slot hmod hx⟩
  · rintro ⟨p, hlive, rfl⟩
    obtain ⟨i, hplace, _⟩ := h.heap.live_slot hlive
    exact ⟨i, (h.onList i _).mpr hplace⟩
  · cases ha with
    | zero => exact ⟨rfl, rfl⟩
    | large => exact ⟨rfl, rfl⟩
    | found fuel hpc hpos hindex =>
      have hlarge := hsize.resolve_left hpos
      rw [slabBucketIndex_eq_none hlarge] at hindex
      cases hindex
    | notFound fuel hpc hpos hindex =>
      have hlarge := hsize.resolve_left hpos
      rw [slabBucketIndex_eq_none hlarge] at hindex
      cases hindex

/-- A call of `kmalloc` from an idle thread and the region of a `kfree` always go on: the walks
over the lists end. -/
theorem goes_on [DecidableEq T] {c : Cells} {as : List (Act T)} {s : State T}
    (hrun : Runs (Step z) (State.start c) as s) (t : T) :
    (∀ size, s.pc t = .idle → ∃ r s', Step z s (.kmalloc t size r) s') ∧
      ∀ i p, s.pc t = .freeing i p → ∃ s', Step z s (.free t p) s' := by
  obtain ⟨slabs, free, place, h⟩ := Sound.run hrun (Sound.start z c)
  constructor
  · intro size hpc
    by_cases hzero : size = 0
    · subst hzero
      exact ⟨_, _, .zero hpc⟩
    cases hindex : slabBucketIndex size with
    | none => exact ⟨_, _, .large hpc hzero hindex⟩
    | some i =>
      obtain ⟨r, hr⟩ := HeapInv.firstFree_returns (h.heap.listed i)
      by_cases hnull : r = 0
      · rw [hnull] at hr
        exact ⟨_, _, .notFound _ hpc hzero hindex hr⟩
      · exact ⟨_, _, .found _ hpc hzero hindex hr hnull⟩
  · intro i p hpc
    rcases Nat.lt_or_ge (s.heap.cell.freeCount (pgrounddown p))
      (s.heap.cell.total (pgrounddown p)) with hlt | hge
    · by_cases hfull : (s.give p).Full (pgrounddown p)
      · obtain ⟨⟨free', hheap⟩, _⟩ := h.given hpc
        have hlisted : Listed 0 (s.give p).heap.cell.next ((s.give p).heap.load i .head)
          (slabs i) := hheap.listed i
        obtain ⟨r, hr⟩ := HeapInv.findLink_returns (a := pgrounddown p) hlisted
        by_cases hnull : (s.give p).heap.load i r = 0
        · exact ⟨_, .freeMissing _ hpc hlt hfull hr hnull⟩
        · exact ⟨_, .freeLast _ hpc hlt hfull hr hnull⟩
      · exact ⟨_, .freeMore hpc hlt hfull⟩
    · exact ⟨_, .freePanic hpc hge⟩

/-- The only object of the only slab is given back, and the walk to the slab's link ends. -/
theorem goes_on_first : ∃ s : State Unit,
    Runs (Step ⟨1, 2, by decide⟩) (State.start fun _ ↦ 0)
      ([Act.kmalloc () 100 none, .page () 4096, .insert (), .ret () 7968] ++ [Act.kfree () 7968])
        s ∧
      ∃ s', Step ⟨1, 2, by decide⟩ s (.free () 7968) s' := by
  have hfirst : ∃ s : State Unit, Runs (Step ⟨1, 2, by decide⟩) (State.start fun _ ↦ 0)
      [.kmalloc () 100 none, .page () 4096, .insert (), .ret () 7968] s ∧
        s.pc () = .idle ∧ s.live 7968 = some 100 ∧
        s.heap.cell.kfreeIndex ⟨1, 2, by decide⟩ 7968 = some 3 :=
    ⟨_, .cons (.notFound 1 (i := 3) rfl (by decide) (by decide) rfl)
      (.cons (.page (p := 1) rfl (by decide) rfl) (.cons (.insert rfl) (.single (.ret rfl)))), rfl,
      rfl, by decide +kernel⟩
  obtain ⟨s, hrun, hpc, hlive, hindex⟩ := hfirst
  have hown : ∀ u j, (s.pc u).object ≠ some (j, 7968) := by
    intro u j
    rw [hpc]
    exact nofun
  have hfree : Runs (Step ⟨1, 2, by decide⟩) s [.kfree () 7968] _ :=
    .single (.kfree hpc (by rw [hlive]; exact nofun) hown (by decide) hindex)
  have hfreeing : (s.goto () (.freeing 3 7968)).pc () = .freeing 3 7968 := rfl
  exact ⟨_, hrun.append hfree, (goes_on (hrun.append hfree) ()).2 3 7968 hfreeing⟩

/-- One page to manage, and the first request for an object. -/
theorem slab_sound_first : ∃ s : State Unit,
    Runs (Step ⟨1, 2, by decide⟩) (State.start fun _ ↦ 0)
      [.kmalloc () 100 none, .page () 4096, .insert (), .ret () 7968] s ∧
      s.live 7968 = some 100 ∧ 100 ≤ s.objSize 7968 ∧ ∃ i, s.OnList i 4096 := by
  have hfirst : ∃ s : State Unit, Runs (Step ⟨1, 2, by decide⟩) (State.start fun _ ↦ 0)
      [.kmalloc () 100 none, .page () 4096, .insert (), .ret () 7968] s ∧
        s.live 7968 = some 100 :=
    ⟨_, .cons (.notFound 1 (i := 3) rfl (by decide) (by decide) rfl)
      (.cons (.page (p := 1) rfl (by decide) rfl) (.cons (.insert rfl) (.single (.ret rfl)))), rfl⟩
  obtain ⟨s, hrun, hlive⟩ := hfirst
  have h := slab_sound hrun
  refine ⟨s, hrun, hlive, (h.1 7968 100 hlive).2.2.2, (h.2.2.2.1 4096).mpr ⟨7968, ?_, rfl⟩⟩
  rw [hlive]
  exact nofun

end State

end Xv6K210.Slab
