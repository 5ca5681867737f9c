import Xv6K210.Alloc.Pages

/-!
# Every page is in one place

At every moment a managed page is on the free list of one CPU, in the hands of one call, or
handed out, as long as no page gets a 256th reference: the quotas have eight bits. The place
of each page is a ghost map, and the quota of a page counts the references that were handed
out together with those that are being given up.
-/

namespace Xv6K210.Alloc

open Base Function

variable {n : Nat} {T : Type} [DecidableEq T] [Fintype T] {z : Zone}

/-- Where a page can be. -/
inductive Place (n : Nat) (T : Type) where
  | list (i : Fin n)
  | transit (t : T)
  | out

namespace State

/-- The number of calls that are about to give up a reference to a page. -/
def drops (s : State n T) (p : Nat) : Nat := refs (fun t ↦ (s.pc t).dropping) p

/-- The page is handed out: references to it are held or are being given up. -/
def HandedOut (s : State n T) (p : Nat) : Prop := 0 < s.owned p + s.drops p

/-- The invariant, with the free lists and the places of the pages. -/
structure Inv (z : Zone) (s : State n T) (free : Fin n → List Nat) (place : Nat → Place n T) :
    Prop where
  listed : ∀ i, Listed 0 s.mem.next (s.mem.head i) (free i)
  nodup : ∀ i, (free i).Nodup
  onList : ∀ i p, p ∈ free i ↔ z.manages p ∧ place p = .list i
  carried : ∀ t p, s.Carries t p ↔ z.manages p ∧ place p = .transit t
  quota : ∀ p, z.manages p → (s.mem.quota p).toNat = s.owned p + s.drops p
  out : ∀ p, s.HandedOut p ↔ z.manages p ∧ place p = .out
  tried : ∀ t seen rest, s.pc t = .look seen rest → ∀ i, i ∈ seen ∨ i ∈ rest

omit [Fintype T] in
/-- The thread is where it went. -/
@[simp] theorem goto_pc_self (s : State n T) (t : T) (pc : Pc n) : (s.goto t pc).pc t = pc :=
  update_self ..

omit [Fintype T] in
private theorem goto_pc_ne (s : State n T) {t u : T} (pc : Pc n) (h : u ≠ t) :
    (s.goto t pc).pc u = s.pc u := update_of_ne h ..

/-- A call goes on: it gives up one page less and another one more. -/
theorem drops_goto (s : State n T) (t : T) (pc : Pc n) (p : Nat) :
    ((s.goto t pc).drops p : Int) =
      s.drops p - holds (s.pc t).dropping p + holds pc.dropping p := by
  have hcomp : (fun u ↦ ((s.goto t pc).pc u).dropping) =
      update (fun u ↦ (s.pc u).dropping) t pc.dropping := by
    funext u
    by_cases hu : u = t
    · rw [hu, update_self, goto_pc_self]
    · rw [update_of_ne hu, goto_pc_ne s pc hu]
  rw [drops, hcomp, refs_update]
  rfl

/-- A call goes on without giving up another page. -/
theorem drops_same {s : State n T} {t : T} {pc : Pc n} (h : pc.dropping = (s.pc t).dropping)
    (p : Nat) : (s.goto t pc).drops p = s.drops p := by
  have hd := drops_goto s t pc p
  rw [h] at hd
  omega

omit [Fintype T] in
/-- A call goes on: it has another page in its hands. -/
theorem carries_goto (s : State n T) (t u : T) (pc : Pc n) (p : Nat) :
    (s.goto t pc).Carries u p ↔ if u = t then pc.carrying = some p else s.Carries u p := by
  unfold Carries
  by_cases hu : u = t
  · rw [hu, goto_pc_self, if_pos rfl]
  · rw [goto_pc_ne s pc hu, if_neg hu]

omit [DecidableEq T] in
private theorem drops_pos {s : State n T} {t : T} {id : Fin n} {p : Nat} (h : s.pc t = .drop id p) :
    0 < s.drops p := refs_pos.mpr ⟨t, by rw [h]; rfl⟩

namespace Inv

variable {s : State n T} {free : Fin n → List Nat} {place : Nat → Place n T}

/-- The calls of `kalloc_page` inspect every list. -/
theorem mem_order (id i : Fin n) : i ∈ id :: (List.finRange n).filter (· ≠ id) := by
  by_cases h : i = id
  · rw [h]
    exact List.mem_cons_self
  · exact List.mem_cons_of_mem _ (List.mem_filter.mpr ⟨List.mem_finRange i, by simpa using h⟩)

/-- A step of a call that takes no page and gives none up. -/
theorem goto (h : s.Inv z free place) {t : T} {pc : Pc n}
    (hdrop : pc.dropping = (s.pc t).dropping) (hcarry : pc.carrying = (s.pc t).carrying)
    (htried : ∀ seen rest, pc = .look seen rest → ∀ i, i ∈ seen ∨ i ∈ rest) :
    (s.goto t pc).Inv z free place := by
  have hdrops := drops_same hdrop
  refine ⟨h.listed, h.nodup, h.onList, fun u p ↦ ?_, fun p hp ↦ ?_, fun p ↦ ?_,
    fun u seen rest hu ↦ ?_⟩
  · rw [carries_goto, ← h.carried u p]
    by_cases hu : u = t
    · rw [if_pos hu, hcarry, hu, Carries]
    · rw [if_neg hu]
  · rw [hdrops]
    exact h.quota p hp
  · rw [HandedOut, hdrops]
    exact h.out p
  · by_cases hut : u = t
    · rw [hut, goto_pc_self] at hu
      exact htried seen rest hu
    · rw [goto_pc_ne s pc hut] at hu
      exact h.tried u seen rest hu

omit [DecidableEq T] in
/-- A page that is not on a list may be written to. -/
theorem store (h : s.Inv z free place) {p : Nat} (v : Nat)
    (hp : 0 < s.owned p ∨ ∃ t, s.Carries t p) :
    State.Inv z { s with mem := s.mem.store p v } free place := by
  have hnot : ∀ i, p ∉ free i := fun i hm ↦ by
    have hlist := ((h.onList i p).mp hm).2
    rcases hp with hp | ⟨t, ht⟩
    · have hout := ((h.out p).mp (Nat.add_pos_left hp _)).2
      rw [hlist] at hout
      cases hout
    · have htr := ((h.carried t p).mp ht).2
      rw [hlist] at htr
      cases htr
  exact ⟨fun i ↦ (h.listed i).update (hnot i) v, h.nodup, h.onList, h.carried, h.quota, h.out,
    h.tried⟩

/-- A call moves one page to another place. -/
theorem move (h : s.Inv z free place) {t : T} {pc : Pc n} {p : Nat} {x : Place n T}
    {mem : Kmem n} {owned : Nat → Nat} {free' : Fin n → List Nat} (hp : z.manages p)
    (hfrom : place p = .transit t ∨ ∀ u, place p ≠ .transit u)
    (hto : x = .transit t ∨ ∀ u, x ≠ .transit u)
    (hold : ∀ q, (s.pc t).carrying = some q → q = p)
    (hnew : ∀ q, pc.carrying = some q ↔ q = p ∧ x = .transit t)
    (hlisted : ∀ i, Listed 0 mem.next (mem.head i) (free' i)) (hnodup : ∀ i, (free' i).Nodup)
    (hlist : ∀ i q, q ∈ free' i ↔ if q = p then x = .list i else q ∈ free i)
    (hquota : ∀ q, z.manages q → (mem.quota q).toNat = owned q + (s.goto t pc).drops q)
    (hkeep : ∀ q, q ≠ p → owned q + (s.goto t pc).drops q = s.owned q + s.drops q)
    (hout : 0 < owned p + (s.goto t pc).drops p ↔ x = .out)
    (htried : ∀ seen rest, pc ≠ .look seen rest) :
    State.Inv z { s.goto t pc with mem := mem, owned := owned } free'
      (update place p x) := by
  refine ⟨hlisted, hnodup, fun i q ↦ ?_, fun u q ↦ ?_, hquota, fun q ↦ ?_,
    fun u seen rest hu ↦ ?_⟩
  · rw [hlist]
    by_cases hq : q = p
    · subst hq
      rw [if_pos rfl, update_self]
      exact ⟨fun hx ↦ ⟨hp, hx⟩, fun hx ↦ hx.2⟩
    · rw [if_neg hq, update_of_ne hq]
      exact h.onList i q
  · change (s.goto t pc).Carries u q ↔ _
    rw [carries_goto]
    by_cases hu : u = t
    · subst hu
      rw [if_pos rfl, hnew]
      by_cases hq : q = p
      · subst hq
        rw [update_self]
        exact ⟨fun hx ↦ ⟨hp, hx.2⟩, fun hx ↦ ⟨rfl, hx.2⟩⟩
      · rw [update_of_ne hq, ← h.carried u q]
        exact ⟨fun hx ↦ absurd hx.1 hq, fun hx ↦ absurd (hold q hx) hq⟩
    · rw [if_neg hu, h.carried u q]
      by_cases hq : q = p
      · subst hq
        rw [update_self]
        constructor
        · intro hx
          rcases hfrom with hf | hf
          · have heq := hx.2
            rw [hf] at heq
            cases heq
            exact absurd rfl hu
          · exact absurd hx.2 (hf u)
        · intro hx
          rcases hto with hf | hf
          · have heq := hx.2
            rw [hf] at heq
            cases heq
            exact absurd rfl hu
          · exact absurd hx.2 (hf u)
      · rw [update_of_ne hq]
  · change 0 < owned q + (s.goto t pc).drops q ↔ _
    by_cases hq : q = p
    · subst hq
      rw [hout, update_self]
      exact ⟨fun hx ↦ ⟨hp, hx⟩, fun hx ↦ hx.2⟩
    · rw [hkeep q hq, update_of_ne hq]
      exact h.out q
  · by_cases hut : u = t
    · rw [hut] at hu
      change (s.goto t pc).pc t = _ at hu
      rw [goto_pc_self] at hu
      exact absurd hu (htried seen rest)
    · change (s.goto t pc).pc u = _ at hu
      rw [goto_pc_ne s pc hut] at hu
      exact h.tried u seen rest hu

omit [DecidableEq T] in
/-- A page that is not handed out has no references and quota zero. -/
theorem unused (h : s.Inv z free place) {p : Nat} (hp : place p ≠ .out) :
    s.owned p = 0 ∧ s.drops p = 0 := by
  have hnot : ¬ 0 < s.owned p + s.drops p := fun ho ↦ hp ((h.out p).mp ho).2
  omega

/-- `kalloc_page` takes the first page off a list. -/
theorem take (h : s.Inv z free place) {t : T} {id : Fin n} {seen rest : List (Fin n)}
    (hpc : s.pc t = .look seen (id :: rest)) (hr : s.mem.head id ≠ 0) :
    ∃ free', State.Inv z { s.goto t (.got (s.mem.head id)) with mem := s.mem.pop id } free'
      (update place (s.mem.head id) (.transit t)) := by
  obtain ⟨l, hl, hlisted⟩ := (h.listed id).pop hr
  set r := s.mem.head id with hrdef
  have hmem : r ∈ free id := by
    rw [hl]
    exact List.mem_cons_self
  have hon := (h.onList id r).mp hmem
  have hnodup := h.nodup id
  rw [hl] at hnodup
  have hunused := h.unused (p := r) (by rw [hon.2]; exact nofun)
  have hdrops : ∀ q, (s.goto t (.got r)).drops q = s.drops q := drops_same (by rw [hpc]; rfl)
  refine ⟨update free id l, h.move hon.1 (.inr fun u hu ↦ ?_) (.inl rfl)
    (fun q hq ↦ ?_) (fun q ↦ ?_) (fun i ↦ ?_) (fun i ↦ ?_) (fun i q ↦ ?_) (fun q hq ↦ ?_)
    (fun q _ ↦ ?_) ?_ nofun⟩
  · rw [hon.2] at hu
    cases hu
  · rw [hpc] at hq
    cases hq
  · exact ⟨fun hq ↦ ⟨(Option.some.inj hq).symm, rfl⟩, fun hq ↦ congrArg some hq.1.symm⟩
  · by_cases hi : i = id
    · subst hi
      rw [update_self]
      simp only [Kmem.pop, update_self]
      exact hlisted
    · rw [update_of_ne hi]
      simp only [Kmem.pop, update_of_ne hi]
      exact h.listed i
  · by_cases hi : i = id
    · subst hi
      rw [update_self]
      exact (List.nodup_cons.mp hnodup).2
    · rw [update_of_ne hi]
      exact h.nodup i
  · by_cases hi : i = id
    · subst hi
      rw [update_self]
      by_cases hq : q = r
      · rw [if_pos hq, hq]
        exact ⟨fun hm ↦ absurd hm (List.nodup_cons.mp hnodup).1, nofun⟩
      · rw [if_neg hq, hl, List.mem_cons]
        exact ⟨.inr, fun hm ↦ hm.resolve_left hq⟩
    · rw [update_of_ne hi]
      by_cases hq : q = r
      · rw [if_pos hq, hq]
        refine ⟨fun hm ↦ ?_, nofun⟩
        have hi' := ((h.onList i r).mp hm).2
        rw [hon.2] at hi'
        cases hi'
        exact absurd rfl hi
      · rw [if_neg hq]
  · rw [hdrops]
    exact h.quota q hq
  · exact congrArg (s.owned q + ·) (hdrops q)
  · change 0 < s.owned r + _ ↔ _
    rw [hdrops, hunused.1, hunused.2]
    exact ⟨fun hlt ↦ absurd hlt (Nat.lt_irrefl 0), nofun⟩

/-- `kfree_page_to` puts the page in front of a list. -/
theorem link (h : s.Inv z free place) {t : T} {id : Fin n} {p : Nat}
    (hpc : s.pc t = .put id p) :
    ∃ free', State.Inv z { s.goto t .idle with mem := s.mem.push id p } free'
      (update place p (.list id)) := by
  have hcar := (h.carried t p).mp (by rw [Carries, hpc]; rfl)
  have hunused := h.unused (p := p) (by rw [hcar.2]; exact nofun)
  have hfree : ∀ i, p ∉ free i := fun i hm ↦ by
    have hi := ((h.onList i p).mp hm).2
    rw [hcar.2] at hi
    cases hi
  have hdrops : ∀ q, (s.goto t .idle).drops q = s.drops q := drops_same (by rw [hpc]; rfl)
  have hne : p ≠ 0 := by
    have hlow := hcar.1.1
    have hpos := z.pos
    omega
  refine ⟨update free id (p :: free id), h.move hcar.1 (.inl hcar.2) (.inr nofun)
    (fun q hq ↦ ?_) (fun q ↦ ?_) (fun i ↦ ?_) (fun i ↦ ?_) (fun i q ↦ ?_) (fun q hq ↦ ?_)
    (fun q _ ↦ ?_) ?_ nofun⟩
  · rw [hpc] at hq
    exact (Option.some.inj hq).symm
  · exact ⟨nofun, fun hq ↦ by cases hq.2⟩
  · by_cases hi : i = id
    · subst hi
      simp only [Kmem.push, update_self]
      exact (h.listed i).push hne (hfree i)
    · simp only [Kmem.push, update_of_ne hi]
      exact (h.listed i).update (hfree i) _
  · by_cases hi : i = id
    · subst hi
      rw [update_self]
      exact List.nodup_cons.mpr ⟨hfree i, h.nodup i⟩
    · rw [update_of_ne hi]
      exact h.nodup i
  · by_cases hi : i = id
    · subst hi
      rw [update_self, List.mem_cons]
      by_cases hq : q = p
      · rw [if_pos hq]
        exact ⟨fun _ ↦ rfl, fun _ ↦ .inl hq⟩
      · rw [if_neg hq]
        exact ⟨fun hm ↦ hm.resolve_left hq, .inr⟩
    · rw [update_of_ne hi]
      by_cases hq : q = p
      · rw [if_pos hq, hq]
        refine ⟨fun hm ↦ absurd hm (hfree i), fun hx ↦ ?_⟩
        cases hx
        exact absurd rfl hi
      · rw [if_neg hq]
  · rw [hdrops]
    exact h.quota q hq
  · exact congrArg (s.owned q + ·) (hdrops q)
  · change 0 < s.owned p + _ ↔ _
    rw [hdrops, hunused.1, hunused.2]
    exact ⟨fun hlt ↦ absurd hlt (Nat.lt_irrefl 0), nofun⟩

/-- `kalloc_page` sets the quota and returns the page. -/
theorem hand (h : s.Inv z free place) {t : T} {p : Nat} (hpc : s.pc t = .got p) :
    State.Inv z { s.goto t .idle with
      mem := s.mem.oneQuota p
      owned := update s.owned p (s.owned p + 1) } free
      (update place p .out) := by
  have hcar := (h.carried t p).mp (by rw [Carries, hpc]; rfl)
  have hunused := h.unused (p := p) (by rw [hcar.2]; exact nofun)
  have hdrops : ∀ q, (s.goto t .idle).drops q = s.drops q := drops_same (by rw [hpc]; rfl)
  refine h.move hcar.1 (.inl hcar.2) (.inr nofun) (fun q hq ↦ ?_) (fun q ↦ ?_) h.listed h.nodup
    (fun i q ↦ ?_) (fun q hq ↦ ?_) (fun q hq ↦ ?_) ?_ nofun
  · rw [hpc] at hq
    exact (Option.some.inj hq).symm
  · exact ⟨nofun, fun hq ↦ by cases hq.2⟩
  · by_cases hq : q = p
    · rw [if_pos hq, hq]
      refine ⟨fun hm ↦ ?_, nofun⟩
      have hi := ((h.onList i p).mp hm).2
      rw [hcar.2] at hi
      cases hi
    · rw [if_neg hq]
  · rw [hdrops]
    by_cases hqp : q = p
    · subst hqp
      simp only [Kmem.oneQuota, update_self, hunused.1, hunused.2]
      rfl
    · simp only [Kmem.oneQuota, update_of_ne hqp]
      exact h.quota q hq
  · rw [hdrops, update_of_ne hq]
  · rw [update_self]
    exact ⟨fun _ ↦ rfl, fun _ ↦ by omega⟩

/-- A call changes the counts of pages that stay where they are. -/
theorem stay (h : s.Inv z free place) {t : T} {pc : Pc n} {quota : Nat → UInt8}
    {owned : Nat → Nat} (hcarry : pc.carrying = (s.pc t).carrying)
    (hquota : ∀ q, z.manages q → (quota q).toNat = owned q + (s.goto t pc).drops q)
    (hout : ∀ q, 0 < owned q + (s.goto t pc).drops q ↔ 0 < s.owned q + s.drops q)
    (htried : ∀ seen rest, pc ≠ .look seen rest) :
    State.Inv z { s.goto t pc with mem := { s.mem with quota := quota }, owned := owned }
      free place := by
  refine ⟨h.listed, h.nodup, h.onList, fun u q ↦ ?_, hquota,
    fun q ↦ (hout q).trans (h.out q), fun u seen rest hu ↦ ?_⟩
  · change (s.goto t pc).Carries u q ↔ _
    rw [carries_goto, ← h.carried u q]
    by_cases hu : u = t
    · rw [if_pos hu, hcarry, hu, Carries]
    · rw [if_neg hu]
  · by_cases hut : u = t
    · rw [hut] at hu
      change (s.goto t pc).pc t = _ at hu
      rw [goto_pc_self] at hu
      exact absurd hu (htried seen rest)
    · change (s.goto t pc).pc u = _ at hu
      rw [goto_pc_ne s pc hut] at hu
      exact h.tried u seen rest hu

/-- A call gives up a reference: the page stays handed out until the quota is decremented. -/
theorem kfree (h : s.Inv z free place) {t : T} {p : Nat} (id : Fin n) (hpc : s.pc t = .idle)
    (howned : 0 < s.owned p) :
    State.Inv z { s.goto t (.drop id p) with
      owned := update s.owned p (s.owned p - 1) } free place := by
  have hsum : ∀ q, update s.owned p (s.owned p - 1) q + (s.goto t (.drop id p)).drops q =
      s.owned q + s.drops q := fun q ↦ by
    have hd := drops_goto s t (.drop id p) q
    rw [hpc] at hd
    simp only [Pc.dropping, holds_none] at hd
    by_cases hq : q = p
    · subst hq
      rw [holds_self] at hd
      rw [update_self]
      omega
    · rw [holds_of_ne (Ne.symm hq)] at hd
      rw [update_of_ne hq]
      omega
  have hquota : ∀ q, z.manages q → (s.mem.quota q).toNat =
      update s.owned p (s.owned p - 1) q + (s.goto t (.drop id p)).drops q := fun q hq ↦ by
    rw [hsum]
    exact h.quota q hq
  refine h.stay ?_ hquota (fun q ↦ ?_) nofun
  · rw [hpc]
    rfl
  · rw [hsum]

/-- The calls that give up a reference, after one of them has decremented the quota. -/
theorem drops_unref {t : T} {id : Fin n} {p : Nat} {pc : Pc n} (hpc : s.pc t = .drop id p)
    (hdrop : pc.dropping = none) (q : Nat) :
    (s.goto t pc).drops q + (if q = p then 1 else 0) = s.drops q := by
  have hd := drops_goto s t pc q
  rw [hpc, hdrop] at hd
  simp only [Pc.dropping, holds_none] at hd
  by_cases hq : q = p
  · subst hq
    rw [holds_self] at hd
    rw [if_pos rfl]
    omega
  · rw [holds_of_ne (Ne.symm hq)] at hd
    rw [if_neg hq]
    omega

omit [DecidableEq T] in
/-- A page that is being given up is handed out, and its quota counts the references. -/
theorem dropped (h : s.Inv z free place) {t : T} {id : Fin n} {p : Nat}
    (hpc : s.pc t = .drop id p) :
    z.manages p ∧ place p = .out ∧ (s.mem.quota p - 1).toNat + 1 = s.owned p + s.drops p := by
  have hpos := drops_pos hpc
  have hout := (h.out p).mp (Nat.add_pos_right _ hpos)
  have hquota := h.quota p hout.1
  refine ⟨hout.1, hout.2, ?_⟩
  have hle : (1 : UInt8) ≤ s.mem.quota p := by
    rw [UInt8.le_iff_toNat_le]
    change 1 ≤ _
    omega
  rw [UInt8.toNat_sub_of_le _ _ hle, hquota]
  change _ - 1 + 1 = _
  omega

/-- A decrement that is not the last one. -/
theorem unrefMore (h : s.Inv z free place) {t : T} {id : Fin n} {p : Nat}
    (hpc : s.pc t = .drop id p) (hcnt : s.mem.quota p - 1 ≠ 0) :
    State.Inv z { s.goto t .idle with mem := s.mem.decQuota p } free place := by
  have hdrop := h.dropped hpc
  have hdrops : ∀ q, (s.goto t .idle).drops q + (if q = p then 1 else 0) = s.drops q :=
    drops_unref hpc rfl
  have hne : (s.mem.quota p - 1).toNat ≠ 0 := fun hz ↦
    hcnt (UInt8.toNat_inj.mp hz)
  refine h.stay ?_ (fun q hq ↦ ?_) (fun q ↦ ?_) nofun
  · rw [hpc]
    rfl
  · have hd := hdrops q
    by_cases hqp : q = p
    · subst hqp
      rw [if_pos rfl] at hd
      rw [update_self]
      change _ = s.owned q + _
      omega
    · rw [if_neg hqp] at hd
      rw [update_of_ne hqp, h.quota q hq]
      change _ = s.owned q + _
      omega
  · have hd := hdrops q
    change 0 < s.owned q + _ ↔ _
    by_cases hqp : q = p
    · subst hqp
      rw [if_pos rfl] at hd
      omega
    · rw [if_neg hqp] at hd
      omega

/-- The last decrement: the page is in the hands of the call. -/
theorem unrefLast (h : s.Inv z free place) {t : T} {id : Fin n} {p : Nat}
    (hpc : s.pc t = .drop id p) (hcnt : s.mem.quota p - 1 = 0) :
    State.Inv z { s.goto t (.put id p) with mem := s.mem.decQuota p } free
      (update place p (.transit t)) := by
  have hdrop := h.dropped hpc
  have hdrops : ∀ q, (s.goto t (.put id p)).drops q + (if q = p then 1 else 0) = s.drops q :=
    drops_unref hpc rfl
  have hone : s.owned p + s.drops p = 1 := by
    rw [← hdrop.2.2, hcnt]
    rfl
  refine h.move hdrop.1 (.inr fun u hu ↦ ?_) (.inl rfl) (fun q hq ↦ ?_) (fun q ↦ ?_) h.listed
    h.nodup (fun i q ↦ ?_) (fun q hq ↦ ?_) (fun q hq ↦ ?_) ?_ nofun
  · rw [hdrop.2.1] at hu
    cases hu
  · rw [hpc] at hq
    cases hq
  · exact ⟨fun hq ↦ ⟨(Option.some.inj hq).symm, rfl⟩, fun hq ↦ congrArg some hq.1.symm⟩
  · by_cases hq : q = p
    · rw [if_pos hq, hq]
      refine ⟨fun hm ↦ ?_, nofun⟩
      have hi := ((h.onList i p).mp hm).2
      rw [hdrop.2.1] at hi
      cases hi
    · rw [if_neg hq]
  · have hd := hdrops q
    by_cases hqp : q = p
    · subst hqp
      rw [if_pos rfl] at hd
      simp only [Kmem.decQuota, update_self, hcnt]
      change 0 = s.owned q + _
      omega
    · rw [if_neg hqp] at hd
      simp only [Kmem.decQuota, update_of_ne hqp]
      rw [h.quota q hq]
      change _ = s.owned q + _
      omega
  · have hd := hdrops q
    rw [if_neg hq] at hd
    change s.owned q + _ = _
    omega
  · have hd := hdrops p
    rw [if_pos rfl] at hd
    change 0 < s.owned p + _ ↔ _
    exact ⟨fun hlt ↦ by omega, nofun⟩

omit [DecidableEq T] in
/-- One more reference, while the quota is not at its limit. -/
theorem share (h : s.Inv z free place) {p : Nat} (howned : 0 < s.owned p)
    (hlimit : s.mem.quota p ≠ 255) :
    State.Inv z { s with
      mem := s.mem.incQuota p
      owned := update s.owned p (s.owned p + 1) } free place := by
  have hlt : (s.mem.quota p).toNat < 255 := by
    have hle := (s.mem.quota p).toNat_lt
    have hne : (s.mem.quota p).toNat ≠ 255 := fun he ↦ hlimit (UInt8.toNat_inj.mp he)
    omega
  refine ⟨h.listed, h.nodup, h.onList, h.carried, fun q hq ↦ ?_, fun q ↦ ?_, h.tried⟩
  · change _ = _ + s.drops q
    by_cases hqp : q = p
    · subst hqp
      simp only [Kmem.incQuota, update_self]
      rw [UInt8.toNat_add, ← Nat.add_right_comm, ← h.quota q hq]
      change ((s.mem.quota q).toNat + 1) % 256 = _
      omega
    · simp only [Kmem.incQuota, update_of_ne hqp]
      exact h.quota q hq
  · refine Iff.trans ?_ (h.out q)
    change 0 < update s.owned p (s.owned p + 1) q + s.drops q ↔
      0 < s.owned q + s.drops q
    by_cases hqp : q = p
    · subst hqp
      rw [update_self]
      omega
    · rw [update_of_ne hqp]

end Inv

/-- The state after `kinit`, with all calls still to come. -/
def start [NeZero n] (z : Zone) : State n T := ⟨Kmem.kinit z, fun _ ↦ .idle, fun _ ↦ 0⟩

end State

/-! ## Boot -/

/-- What the loop of `freerange` has done before page `p`. -/
structure Kmem.Freed (z : Zone) (k : Kmem n) (free : Fin n → List Nat) (p : Nat) : Prop where
  listed : ∀ i, Listed 0 k.next (k.head i) (free i)
  nodup : ∀ i, (free i).Nodup
  mem : ∀ q, (∃ i, q ∈ free i) ↔ z.first ≤ q ∧ q < p
  apart : ∀ i j q, q ∈ free i → q ∈ free j → i = j
  quota : ∀ q, z.first ≤ q → q < p → k.quota q = 0

/-- One turn of the loop. -/
theorem Kmem.Freed.step {k : Kmem n} {free : Fin n → List Nat} {p : Nat}
    (h : k.Freed z free p) (hp : z.first ≤ p) (id : Fin n) :
    ((k.oneQuota p).freeTo id p).Freed z (update free id (p :: free id)) (p + 1) := by
  have hnew : ∀ i, p ∉ free i := fun i hm ↦ by
    have hlt := ((h.mem p).mp ⟨i, hm⟩).2
    omega
  have hne : p ≠ 0 := by
    have hpos := z.pos
    omega
  have hzero : ((k.oneQuota p).decQuota p).quota p = 0 := by
    simp [Kmem.oneQuota, Kmem.decQuota]
  have hmem : ∀ i q, q ∈ update free id (p :: free id) i ↔
      (i = id ∧ q = p) ∨ q ∈ free i := fun i q ↦ by
    by_cases hi : i = id
    · subst hi
      rw [update_self, List.mem_cons]
      simp
    · rw [update_of_ne hi]
      simp [hi]
  unfold Kmem.freeTo
  dsimp only
  rw [if_pos hzero]
  refine ⟨fun i ↦ ?_, fun i ↦ ?_, fun q ↦ ?_, fun i j q hi hj ↦ ?_, fun q hq hlt ↦ ?_⟩
  · by_cases hi : i = id
    · subst hi
      simp only [Kmem.push, update_self]
      exact (h.listed i).push hne (hnew i)
    · simp only [Kmem.push, update_of_ne hi]
      exact (h.listed i).update (hnew i) _
  · by_cases hi : i = id
    · subst hi
      rw [update_self]
      exact List.nodup_cons.mpr ⟨hnew i, h.nodup i⟩
    · rw [update_of_ne hi]
      exact h.nodup i
  · have hq := h.mem q
    constructor
    · rintro ⟨i, hi⟩
      rcases (hmem i q).mp hi with ⟨_, rfl⟩ | hi
      · exact ⟨hp, Nat.lt_succ_self q⟩
      · have hb := hq.mp ⟨i, hi⟩
        exact ⟨hb.1, Nat.lt_succ_of_lt hb.2⟩
    · intro hb
      by_cases hqp : q = p
      · exact ⟨id, (hmem id q).mpr (.inl ⟨rfl, hqp⟩)⟩
      · obtain ⟨i, hi⟩ := hq.mpr ⟨hb.1, by omega⟩
        exact ⟨i, (hmem i q).mpr (.inr hi)⟩
  · rcases (hmem i q).mp hi with ⟨hid, rfl⟩ | hold
    · rcases (hmem j q).mp hj with ⟨hjd, _⟩ | hold
      · rw [hid, hjd]
      · exact absurd hold (hnew j)
    · rcases (hmem j q).mp hj with ⟨_, rfl⟩ | hold'
      · exact absurd hold (hnew i)
      · exact h.apart i j q hold hold'
  · by_cases hqp : q = p
    · rw [hqp]
      exact hzero
    · simp only [Kmem.push, Kmem.decQuota, Kmem.oneQuota, update_of_ne hqp]
      exact h.quota q hq (by omega)

/-- The whole loop. -/
theorem Kmem.Freed.freerange [NeZero n] (left : Nat) {k : Kmem n} {free : Fin n → List Nat}
    {p : Nat} (h : k.Freed z free p) (hp : z.first ≤ p) (id : Fin n) :
    ∃ free', (Kmem.freerange left p id k).Freed z free' (p + left) := by
  induction left generalizing k free p id with
  | zero => exact ⟨free, h⟩
  | succ left ih =>
    obtain ⟨free', h'⟩ := ih (h.step hp id) (by omega) (id + 1)
    have hsum : p + 1 + left = p + (left + 1) := by omega
    rw [hsum] at h'
    exact ⟨free', h'⟩

omit [DecidableEq T] in
/-- At boot every managed page is on a list. -/
theorem State.Inv.start [NeZero n] (z : Zone) :
    ∃ free place, (State.start z : State n T).Inv z free place := by
  classical
  have hempty : Kmem.Freed z (⟨fun _ ↦ 0, fun _ ↦ 0, fun _ ↦ 0⟩ : Kmem n) (fun _ ↦ []) z.first :=
    ⟨fun _ ↦ rfl, fun _ ↦ List.nodup_nil, fun q ↦ ⟨fun ⟨_, h⟩ ↦ absurd h List.not_mem_nil,
      fun h ↦ by omega⟩, fun _ _ _ h ↦ absurd h List.not_mem_nil, fun q h h' ↦ by omega⟩
  obtain ⟨free, h⟩ := hempty.freerange (z.last - z.first) (Nat.le_refl _) 0
  have hbound : ∀ q, z.manages q ↔ z.first ≤ q ∧ q < z.first + (z.last - z.first) := fun q ↦ by
    unfold Zone.manages
    omega
  have hdrops : ∀ p, (State.start z : State n T).drops p = 0 := fun p ↦ refs_none p
  refine ⟨free, fun q ↦ if hq : ∃ i, q ∈ free i then .list hq.choose else .out,
    h.listed, h.nodup, fun i q ↦ ?_, fun t p ↦ ?_, fun p hp ↦ ?_, fun p ↦ ?_, nofun⟩
  · constructor
    · intro hi
      have hex : ∃ i, q ∈ free i := ⟨i, hi⟩
      refine ⟨(hbound q).mpr ((h.mem q).mp hex), ?_⟩
      rw [dif_pos hex, h.apart _ i q hex.choose_spec hi]
    · rintro ⟨hq, hplace⟩
      have hex : ∃ i, q ∈ free i := (h.mem q).mpr ((hbound q).mp hq)
      rw [dif_pos hex] at hplace
      cases hplace
      exact hex.choose_spec
  · constructor
    · exact nofun
    · rintro ⟨hq, hplace⟩
      rw [dif_pos ((h.mem p).mpr ((hbound p).mp hq))] at hplace
      cases hplace
  · have hb := (hbound p).mp hp
    have hzero : (Kmem.kinit z : Kmem n).quota p = 0 := h.quota p hb.1 hb.2
    rw [hdrops]
    change ((Kmem.kinit z : Kmem n).quota p).toNat = 0 + 0
    rw [hzero]
    rfl
  · rw [State.HandedOut, hdrops]
    constructor
    · exact fun hlt ↦ absurd hlt (Nat.lt_irrefl 0)
    · rintro ⟨hq, hplace⟩
      rw [dif_pos ((h.mem p).mpr ((hbound p).mp hq))] at hplace
      cases hplace

namespace State

/-! ## Runs -/

/-- The condition of a step: a page gets no further reference while its quota has the largest
value of a `char`. -/
def Counted (s : State n T) (a : Act n T) : Prop := ∀ t p, a = .share t p → s.mem.quota p ≠ 255

omit [DecidableEq T] in
/-- A page that is shared or given up is managed. -/
theorem Inv.managed {s : State n T} {free : Fin n → List Nat} {place : Nat → Place n T}
    (h : s.Inv z free place) {p : Nat} (howned : 0 < s.owned p) : z.manages p :=
  ((h.out p).mp (Nat.add_pos_left howned _)).1

/-- Every counted step keeps the invariant. -/
theorem Inv.step {s s' : State n T} {a : Act n T}
    (h : ∃ free place, s.Inv z free place) (ha : Step z s a s') (hcount : s.Counted a) :
    ∃ free place, s'.Inv z free place := by
  obtain ⟨free, place, h⟩ := h
  cases ha with
  | kalloc id hpc =>
    refine ⟨free, place, h.goto ?_ ?_ fun seen rest hlook i ↦ ?_⟩
    · rw [hpc]
      rfl
    · rw [hpc]
      rfl
    · cases hlook
      exact .inr (Inv.mem_order id i)
  | @empty t seen rest id hpc hr =>
    refine ⟨free, place, h.goto ?_ ?_ fun seen' rest' hlook i ↦ ?_⟩
    · rw [hpc]
      rfl
    · rw [hpc]
      rfl
    · cases hlook
      rcases h.tried t seen _ hpc i with hi | hi
      · exact .inl (List.mem_cons_of_mem _ hi)
      · rcases List.mem_cons.mp hi with rfl | hi
        · exact .inl List.mem_cons_self
        · exact .inr hi
  | take hpc hr =>
    obtain ⟨free', h'⟩ := h.take hpc hr
    exact ⟨free', _, h'⟩
  | hand hpc => exact ⟨free, _, h.hand hpc⟩
  | fail hpc =>
    refine ⟨free, place, h.goto ?_ ?_ nofun⟩
    · rw [hpc]
      rfl
    · rw [hpc]
      rfl
  | kfree id hpc howned hp => exact ⟨free, place, h.kfree id hpc howned⟩
  | kfreePanic id hpc howned hp => exact absurd (h.managed howned) hp
  | unrefMore hpc hcnt => exact ⟨free, place, h.unrefMore hpc hcnt⟩
  | unrefLast hpc hcnt => exact ⟨free, _, h.unrefLast hpc hcnt⟩
  | link hpc =>
    obtain ⟨free', h'⟩ := h.link hpc
    exact ⟨free', _, h'⟩
  | @share t p hpc howned hp =>
    exact ⟨free, place, h.share howned (hcount t p rfl)⟩
  | sharePanic hpc howned hp => exact absurd (h.managed howned) hp
  | store v hp => exact ⟨free, place, h.store v hp⟩

/-- A page is in a place. -/
def InPlace (s : State n T) (p : Nat) : Place n T → Prop
  | .list i => ∃ l, Listed 0 s.mem.next (s.mem.head i) l ∧ p ∈ l
  | .transit t => s.Carries t p
  | .out => s.HandedOut p

omit [DecidableEq T] in
/-- Every managed page is in the place that the ghost map tells, and in no other. -/
theorem Inv.inPlace {s : State n T} {free : Fin n → List Nat} {place : Nat → Place n T}
    (h : s.Inv z free place) {p : Nat} (hp : z.manages p) (x : Place n T) :
    s.InPlace p x ↔ place p = x := by
  cases x with
  | list i =>
    constructor
    · rintro ⟨l, hl, hm⟩
      rw [hl.unique (h.listed i)] at hm
      exact ((h.onList i p).mp hm).2
    · exact fun hx ↦ ⟨free i, h.listed i, (h.onList i p).mpr ⟨hp, hx⟩⟩
  | transit t => exact (h.carried t p).trans ⟨fun hx ↦ hx.2, fun hx ↦ ⟨hp, hx⟩⟩
  | out => exact (h.out p).trans ⟨fun hx ↦ hx.2, fun hx ↦ ⟨hp, hx⟩⟩

/-- The steps of a counted run. -/
def CountedStep (z : Zone) (s : State n T) (a : Act n T) (s' : State n T) : Prop :=
  Step z s a s' ∧ s.Counted a

/-- The invariant holds at the end of every counted run. -/
theorem Inv.run {s s' : State n T} {as : List (Act n T)} (hrun : Runs (CountedStep z) s as s')
    (h : ∃ free place, s.Inv z free place) : ∃ free place, s'.Inv z free place :=
  hrun.invariant (fun s ↦ ∃ free place, s.Inv z free place)
    (fun _ _ _ h ha ↦ Inv.step h ha.1 ha.2) h

/-- A page stays handed out until its last reference is given up. -/
theorem HandedOut.step {s s' : State n T} {a : Act n T} {p : Nat} (h : s.HandedOut p)
    (hinv : ∃ free place, s.Inv z free place) (ha : Step z s a s')
    (hlast : ∀ t, a ≠ .unref t p true) : s'.HandedOut p := by
  obtain ⟨free, place, hinv⟩ := hinv
  unfold HandedOut at h ⊢
  cases ha with
  | kalloc id hpc =>
    rw [drops_same (by rw [hpc]; rfl)]
    exact h
  | empty hpc hr =>
    rw [drops_same (by rw [hpc]; rfl)]
    exact h
  | @take t seen rest id hpc hr =>
    change 0 < s.owned p + (s.goto t (.got (s.mem.head id))).drops p
    rw [drops_same (by rw [hpc]; rfl)]
    exact h
  | @hand t q hpc =>
    change 0 < update s.owned q (s.owned q + 1) p + (s.goto t .idle).drops p
    rw [drops_same (by rw [hpc]; rfl)]
    by_cases hq : p = q
    · rw [hq, update_self]
      omega
    · rw [update_of_ne hq]
      exact h
  | fail hpc =>
    rw [drops_same (by rw [hpc]; rfl)]
    exact h
  | kfree id hpc howned hp =>
    exact ((hinv.kfree id hpc howned).out p).mpr ((hinv.out p).mp h)
  | kfreePanic id hpc howned hp =>
    rw [drops_same (by rw [hpc]; rfl)]
    exact h
  | unrefMore hpc hcnt => exact ((hinv.unrefMore hpc hcnt).out p).mpr ((hinv.out p).mp h)
  | @unrefLast t id q hpc hcnt =>
    have hq : p ≠ q := by
      rintro rfl
      exact hlast t rfl
    refine ((hinv.unrefLast hpc hcnt).out p).mpr ?_
    rw [update_of_ne hq]
    exact (hinv.out p).mp h
  | @link t id q hpc =>
    change 0 < s.owned p + (s.goto t .idle).drops p
    rw [drops_same (by rw [hpc]; rfl)]
    exact h
  | @share t q hpc howned hp =>
    change 0 < update s.owned q (s.owned q + 1) p + s.drops p
    by_cases hq : p = q
    · rw [hq, update_self]
      omega
    · rw [update_of_ne hq]
      exact h
  | sharePanic hpc howned hp =>
    rw [drops_same (by rw [hpc]; rfl)]
    exact h
  | store v hp => exact h

/-- What is handed out is handed out again only after its last reference was given up. -/
theorem HandedOut.again {s s' : State n T} {mid post : List (Act n T)} {u : T} {p : Nat}
    (hrun : Runs (CountedStep z) s (mid ++ .hand u p :: post) s') (h : s.HandedOut p)
    (hinv : ∃ free place, s.Inv z free place) : ∃ t, .unref t p true ∈ mid := by
  induction mid generalizing s with
  | nil =>
    -- a page that is handed out is not in the hands of a call
    cases hrun with
    | cons head tail =>
      obtain ⟨free, place, hinv⟩ := hinv
      cases head.1 with
      | hand hpc =>
        have hout := ((hinv.out p).mp h).2
        have hcar := ((hinv.carried u p).mp (by rw [Carries, hpc]; rfl)).2
        rw [hout] at hcar
        cases hcar
  | cons a mid ih =>
    cases hrun with
    | cons head tail =>
      by_cases hlast : ∃ t, a = .unref t p true
      · obtain ⟨t, rfl⟩ := hlast
        exact ⟨t, List.mem_cons_self⟩
      · have hout := h.step hinv head.1 fun t ht ↦ hlast ⟨t, ht⟩
        obtain ⟨t, ht⟩ := ih tail hout (Inv.step hinv head.1 head.2)
        exact ⟨t, List.mem_cons_of_mem _ ht⟩

/-- The call of a thread that is under way has found the list of a CPU empty. -/
def Inspected (z : Zone) (s : State n T) (as : List (Act n T)) (t : T) (i : Fin n) : Prop :=
  ∃ pre mid v seen rest, as = pre ++ Act.inspect t :: mid ∧ Runs (Step z) s pre v ∧
    v.pc t = .look seen (i :: rest) ∧ v.mem.head i = 0 ∧ ∀ id, Act.kalloc t id ∉ mid

omit [Fintype T] in
/-- A thread in the loop came there by the last step, or was there before. -/
theorem look_goto {s : State n T} {t u : T} {pc : Pc n} {seen rest : List (Fin n)}
    (h : (s.goto u pc).pc t = .look seen rest) :
    t = u ∧ pc = .look seen rest ∨ t ≠ u ∧ s.pc t = .look seen rest := by
  by_cases ht : t = u
  · rw [ht, goto_pc_self] at h
    exact .inl ⟨ht, h⟩
  · rw [goto_pc_ne s pc ht] at h
    exact .inr ⟨ht, h⟩

omit [Fintype T] in
/-- A list that a call has passed after a step was passed before, or found empty now. -/
theorem seen_before {s m : State n T} {a : Act n T} {t : T} {i : Fin n}
    {seen rest : List (Fin n)} (ha : Step z s a m) (hm : m.pc t = .look seen rest)
    (hi : i ∈ seen) :
    (a = .inspect t ∧ ∃ seen rest, s.pc t = .look seen (i :: rest) ∧ s.mem.head i = 0) ∨
      (∃ seen rest, s.pc t = .look seen rest ∧ i ∈ seen) ∧ ∀ id, a ≠ .kalloc t id := by
  have hother : s.pc t = .look seen rest → (∀ id, a ≠ .kalloc t id) →
      (∃ seen rest, s.pc t = .look seen rest ∧ i ∈ seen) ∧ ∀ id, a ≠ .kalloc t id :=
    fun hs hno ↦ ⟨⟨seen, rest, hs, hi⟩, hno⟩
  cases ha with
  | kalloc id hpc =>
    rcases look_goto hm with ⟨rfl, hlook⟩ | ⟨hne, hs⟩
    · cases hlook
      exact absurd hi List.not_mem_nil
    · refine .inr (hother hs fun id' h ↦ ?_)
      cases h
      exact hne rfl
  | @empty u seen' rest' id hpc hr =>
    rcases look_goto hm with ⟨rfl, hlook⟩ | ⟨hne, hs⟩
    · cases hlook
      rcases List.mem_cons.mp hi with rfl | hold
      · exact .inl ⟨rfl, seen', rest, hpc, hr⟩
      · exact .inr ⟨⟨seen', id :: rest, hpc, hold⟩, nofun⟩
    · exact .inr (hother hs nofun)
  | take hpc hr =>
    rcases look_goto hm with ⟨_, hlook⟩ | ⟨_, hs⟩
    · cases hlook
    · exact .inr (hother hs nofun)
  | hand hpc =>
    rcases look_goto hm with ⟨_, hlook⟩ | ⟨_, hs⟩
    · cases hlook
    · exact .inr (hother hs nofun)
  | fail hpc =>
    rcases look_goto hm with ⟨_, hlook⟩ | ⟨_, hs⟩
    · cases hlook
    · exact .inr (hother hs nofun)
  | kfree id hpc howned hp =>
    rcases look_goto hm with ⟨_, hlook⟩ | ⟨_, hs⟩
    · cases hlook
    · exact .inr (hother hs nofun)
  | kfreePanic id hpc howned hp =>
    rcases look_goto hm with ⟨_, hlook⟩ | ⟨_, hs⟩
    · cases hlook
    · exact .inr (hother hs nofun)
  | unrefMore hpc hcnt =>
    rcases look_goto hm with ⟨_, hlook⟩ | ⟨_, hs⟩
    · cases hlook
    · exact .inr (hother hs nofun)
  | unrefLast hpc hcnt =>
    rcases look_goto hm with ⟨_, hlook⟩ | ⟨_, hs⟩
    · cases hlook
    · exact .inr (hother hs nofun)
  | link hpc =>
    rcases look_goto hm with ⟨_, hlook⟩ | ⟨_, hs⟩
    · cases hlook
    · exact .inr (hother hs nofun)
  | share hpc howned hp => exact .inr (hother hm nofun)
  | sharePanic hpc howned hp =>
    rcases look_goto hm with ⟨_, hlook⟩ | ⟨_, hs⟩
    · cases hlook
    · exact .inr (hother hs nofun)
  | store v hp => exact .inr (hother hm nofun)

omit [Fintype T] in
/-- The lists that a call has passed were empty when it inspected them. -/
theorem inspected_of_seen {s s' : State n T} {as : List (Act n T)} {t : T} {i : Fin n}
    {seen rest : List (Fin n)} (hrun : Runs (Step z) s as s') (hpc : s'.pc t = .look seen rest)
    (hi : i ∈ seen) :
    Inspected z s as t i ∨
      (∃ seen rest, s.pc t = .look seen rest ∧ i ∈ seen) ∧ ∀ id, .kalloc t id ∉ as := by
  induction hrun with
  | nil => exact .inr ⟨⟨seen, rest, hpc, hi⟩, fun _ ↦ List.not_mem_nil⟩
  | @cons s m s' a as head tail ih =>
    rcases ih hpc with ⟨pre, mid, v, seen', rest', rfl, hpre, hv⟩ | ⟨⟨seen', rest', hm, hi'⟩, hno⟩
    · exact .inl ⟨a :: pre, mid, v, seen', rest', rfl, .cons head hpre, hv⟩
    -- the first step starts no other call, and passes at most one list
    rcases seen_before head hm hi' with ⟨rfl, seen, rest, hs, hr⟩ | ⟨hs, hne⟩
    · exact .inl ⟨[], as, s, seen, rest, rfl, .nil s, hs, hr, hno⟩
    · refine .inr ⟨hs, fun id h ↦ ?_⟩
      rcases List.mem_cons.mp h with h | h
      · exact hne id h.symm
      · exact hno id h

/-- As long as no page gets another reference while its quota is 255: every managed page is
in one place, the free lists are lists of managed pages, a page is handed out again only
after its last reference was given up, and a call of `kalloc_page` that returns 0 has found
the list of each CPU empty. -/
theorem pages_conserved [NeZero n] {as : List (Act n T)} {s : State n T}
    (hrun : Runs (CountedStep z) (start z) as s) :
    (∀ p, z.manages p → ∃! x, s.InPlace p x) ∧
      (∀ i, ∃ l, Listed 0 s.mem.next (s.mem.head i) l ∧ l.Nodup ∧ ∀ p ∈ l, z.manages p) ∧
      (∀ t p s', Step z s (.hand t p) s' → z.manages p ∧ ¬ s.HandedOut p) ∧
      (∀ pre mid post t u p, as = pre ++ Act.hand t p :: (mid ++ Act.hand u p :: post) →
        ∃ v, Act.unref v p true ∈ mid) ∧
      ∀ t s', Step z s (.fail t) s' → ∀ i, Inspected z (start z) as t i := by
  obtain ⟨free, place, h⟩ := Inv.run hrun (Inv.start z)
  refine ⟨fun p hp ↦ ⟨place p, (h.inPlace hp _).mpr rfl, fun x hx ↦ ((h.inPlace hp x).mp hx).symm⟩,
    fun i ↦ ⟨free i, h.listed i, h.nodup i, fun p hp ↦ ((h.onList i p).mp hp).1⟩,
    fun t p s' ha ↦ ?_, fun pre mid post t u p has ↦ ?_, fun t s' ha i ↦ ?_⟩
  · cases ha with
    | hand hpc =>
      have hcar := (h.carried t p).mp (by rw [Carries, hpc]; rfl)
      refine ⟨hcar.1, fun hout ↦ ?_⟩
      have hplace := ((h.out p).mp hout).2
      rw [hcar.2] at hplace
      cases hplace
  · rw [has] at hrun
    obtain ⟨v, hpre, hrest⟩ := hrun.of_append
    cases hrest with
    | cons head tail =>
      have hinv := Inv.run hpre (Inv.start z)
      refine HandedOut.again tail ?_ (Inv.step hinv head.1 head.2)
      obtain ⟨free, place, hinv⟩ := hinv
      cases head.1 with
      | hand hpc =>
        have hcar := (hinv.carried t p).mp (by rw [Carries, hpc]; rfl)
        exact ((hinv.hand hpc).out p).mpr ⟨hcar.1, update_self ..⟩
  · cases ha with
    | fail hpc =>
      have hseen := (h.tried t _ [] hpc i).resolve_right List.not_mem_nil
      rcases inspected_of_seen (hrun.mono fun _ _ _ hstep ↦ hstep.1) hpc hseen with
        hins | ⟨⟨seen, rest, hidle, _⟩, _⟩
      · exact hins
      · cases hidle

/-! ## One page -/

/-- One CPU, one thread and one managed page. -/
def onePage : Zone := ⟨1, 2, by decide⟩

/-- The first call hands out the page. -/
theorem handed_out : ∃ s : State 1 Unit, Runs (CountedStep onePage) (start onePage)
    [.kalloc () 0, .inspect (), .hand () 1] s ∧
      s.pc () = .idle ∧ s.owned 1 = 1 ∧ s.mem.quota 1 = 1 ∧ s.mem.head 0 = 0 := by
  refine ⟨_, .cons ⟨.kalloc 0 rfl, nofun⟩ (.cons ⟨.take rfl (by decide), nofun⟩
    (.cons ⟨.hand rfl, nofun⟩ (.nil _))), rfl, rfl, rfl, rfl⟩

/-- One call hands out the page, and the next one inspects the only list. -/
def twoCalls : List (Act 1 Unit) :=
  [Act.kalloc () 0, .inspect (), .hand () 1] ++ [Act.kalloc () 0, .inspect ()]

/-- The page is handed out, and the second call found the only list empty. -/
theorem pages_conserved_one : ∃ s : State 1 Unit,
    Runs (CountedStep onePage) (start onePage) twoCalls s ∧ (∃! x, s.InPlace 1 x) ∧
      Inspected onePage (start onePage) twoCalls () 0 := by
  obtain ⟨s, hrun, hpc, howned, hquota, hhead⟩ := handed_out
  have hagain : Runs (CountedStep onePage) s [.kalloc () 0, .inspect ()] _ :=
    .cons ⟨.kalloc 0 hpc, nofun⟩ (.single ⟨.empty rfl hhead, nofun⟩)
  have h := pages_conserved (hrun.append hagain)
  exact ⟨_, hrun.append hagain, h.1 1 (by decide), h.2.2.2.2 () _ (.fail rfl) 0⟩

omit [Fintype T] in
/-- The page is shared any number of times. -/
theorem shared {s : State n T} {t : T} {p : Nat} (hpc : s.pc t = .idle) (howned : 0 < s.owned p)
    (hp : z.manages p) (k : Nat) :
    ∃ s', Runs (Step z) s (List.replicate k (.share t p)) s' ∧ s'.pc = s.pc ∧
      s'.owned p = s.owned p + k ∧ s'.mem.quota p = s.mem.quota p + UInt8.ofNat k ∧
        s'.mem.head = s.mem.head := by
  induction k generalizing s with
  | zero => exact ⟨s, .nil s, rfl, rfl, (UInt8.add_zero _).symm, rfl⟩
  | succ k ih =>
    have hstep := Step.share hpc howned hp
    obtain ⟨s', hrun, hpc', howned', hquota, hhead⟩ := ih (s := { s with
      mem := s.mem.incQuota p
      owned := update s.owned p (s.owned p + 1) }) hpc (by simp)
    simp only [Kmem.incQuota, update_self] at howned' hquota
    refine ⟨s', .cons hstep hrun, hpc', ?_, ?_, hhead⟩
    · omega
    · rw [hquota, UInt8.add_assoc, UInt8.ofNat_add, UInt8.add_comm 1]
      rfl

/-- After 256 calls of `kaddquota` the quota is 1 again, and the first of the 257 references
that is given up puts the page on the free list. -/
theorem pages_conserved_fails : ¬ ∀ (as : List (Act 1 Unit)) (s : State 1 Unit),
    Runs (Step onePage) (start onePage) as s →
      ∀ p, onePage.manages p → ∃! x, s.InPlace p x := by
  intro hclaim
  obtain ⟨s, hrun, hpc, howned, hquota, hhead⟩ := handed_out
  obtain ⟨s', hrun', hpc', howned', hquota', hhead'⟩ :=
    shared (z := onePage) hpc (by rw [howned]; decide) (by decide : onePage.manages 1) 256
  rw [howned] at howned'
  rw [hquota] at hquota'
  have hidle : s'.pc () = .idle := by rw [hpc', hpc]
  have hlast : s'.mem.quota 1 - 1 = 0 := by
    rw [hquota']
    rfl
  have hfree : Runs (Step onePage) s' [.kfree () 0 1, .unref () 1 true, .link ()] _ :=
    .cons (.kfree 0 hidle (by omega) (by decide))
      (.cons (.unrefLast rfl hlast) (.single (.link rfl)))
  have hplace := hclaim _ _ (((hrun.mono fun _ _ _ h ↦ h.1).append hrun').append hfree) 1
    (by decide)
  have hnull : s'.mem.head 0 = 0 := by rw [hhead', hhead]
  have hlist : (Place.list 0 : Place 1 Unit) = .out := by
    refine hplace.unique ⟨[1], ⟨rfl, by decide, ?_⟩, List.mem_singleton_self 1⟩ ?_
    · change update s'.mem.next 1 (s'.mem.head 0) 1 = 0
      rw [update_self, hnull]
    · change 0 < update s'.owned 1 (s'.owned 1 - 1) 1 + _
      rw [update_self, howned']
      omega
  cases hlist

end State

end Xv6K210.Alloc
