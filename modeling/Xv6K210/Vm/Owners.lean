import Xv6K210.Base.Holders
import Xv6K210.Vm.Subtract

/-!
# Who owns a physical page

A page is owned by the user entries that map it, by the lists of shared pages and the
buffers that hold it, or by the kernel as a table, a trap frame or a stack. The quota of a page is
the number of its owners; while a routine runs, a list tells the pages that it has in hand. Two
owners share a page only when one of them is a user entry of a process and the other belongs to
another process or to an object.
-/

namespace Xv6K210.Vm

open Xv6K210.Base Prog

variable {P O F : Type}

/-- `NPROC`. -/
def nproc : Nat := 64

/-- What may own a physical page. -/
inductive Owner (P O : Type) where
  /-- an entry of the user table -/
  | user (p : P) (n : Nat)
  /-- an entry of the table of a new image -/
  | image (p : P) (n : Nat)
  /-- the kernel stack -/
  | stack (p : P)
  /-- the trap frame -/
  | frame (p : P)
  /-- the page of a table, of its level 2, 1 or 0 -/
  | root (t : Tbl P)
  | mid (t : Tbl P) (k : Nat)
  | low (t : Tbl P) (k : Nat)
  /-- an element of the list of shared pages -/
  | anon (o : O) (index : Nat)
  /-- a page of a kernel buffer -/
  | kbuf (o : O) (index : Nat)

/-- The page of an entry for user memory. -/
def userPage (u : Nat → Option Pte) (n : Nat) : Option Nat :=
  if n * pgsize < maxuva then (u n).map (·.pa) else none

/-- The page that an owner has; `fr` tells the trap frames. -/
def World.owns (w : World P O F) (fr : P → Option Nat) : Owner P O → Option Nat
  | .user p n => userPage (w.leaf (.user p)) n
  | .image p n => userPage (w.leaf (.image p)) n
  | .stack p =>
    if (w.proc p).kstack = 0 then none else (w.leaf (.kern p) (w.proc p).kstack).map (·.pa)
  | .frame p => fr p
  | .root t => (w.pt t).root
  | .mid t k => (w.pt t).l1[k]?
  | .low t k => (w.pt t).l0[k]?
  | .anon o index => ((w.obj o).bind (·.anon)).bind (anonFind · index)
  | .kbuf o index => ((w.obj o).bind (·.kbuf)).bind (·[index]?)

/-- The trap frames of the processes. -/
def World.frames (w : World P O F) (p : P) : Option Nat := (w.proc p).trapframe

/-- The table that an owner is a part of. -/
def Owner.table : Owner P O → Option (Tbl P)
  | .user p _ => some (.user p)
  | .image p _ => some (.image p)
  | .stack p => some (.kern p)
  | .root t | .mid t _ | .low t _ => some t
  | _ => none

/-- Two owners that may have the same page. -/
def Owner.Shares : Owner P O → Owner P O → Prop
  | .user p _, .user q _ | .user p _, .image q _ | .image p _, .user q _ => p ≠ q
  | .user _ _, .anon _ _ | .user _ _, .kbuf _ _ | .anon _ _, .user _ _ | .kbuf _ _, .user _ _ =>
    True
  | _, _ => False

/-- Sharing is symmetric. -/
theorem Owner.Shares.symm {x y : Owner P O} (h : x.Shares y) : y.Shares x := by
  cases x <;> cases y <;> first | exact h | exact Ne.symm h

/-- The place in an object that an owner is. -/
def Owner.backing : Owner P O → Option (O × Nat)
  | .anon o i | .kbuf o i => some (o, i)
  | _ => none

/-- Only entries of processes share with an object. -/
theorem Owner.Shares.eq_user {x y : Owner P O} (h : x.Shares y) {b : O × Nat}
    (hb : y.backing = some b) : ∃ p n, x = .user p n := by
  cases y with
  | anon o i =>
    cases x with
    | user p n => exact ⟨p, n, rfl⟩
    | _ => exact absurd h id
  | kbuf o i =>
    cases x with
    | user p n => exact ⟨p, n, rfl⟩
    | _ => exact absurd h id
  | _ => cases hb

/-- A user page may be shared with its backing. -/
theorem Owner.user_shares {y : Owner P O} {b : O × Nat} (hb : y.backing = some b) (p : P)
    (n : Nat) : (Owner.user p n).Shares y := by
  cases y with
  | anon o i => trivial
  | kbuf o i => trivial
  | _ => cases hb

/-- The object of a page of user memory, and the index of the page in it. -/
def World.place (w : World P O F) (p : P) (n : Nat) : Option (O × Nat) :=
  (view (w.proc p).vmas n).bind fun x ↦ x.object.map fun o ↦ (o, x.offset / pgsize)

/-- The quotas count the owners and the pages `hs` in hand, a page is shared only where that may
be, a table without a root has nothing, and a shared page is mapped where its object says. `ct`
tells of some owners what their pages hold. -/
structure Tally (ct : Owner P O → Option (Nat → UInt8)) (fr : P → Option Nat) (hs : List Nat)
    (w : World P O F) : Prop where
  count : ∀ pa, (w.quota pa : ℕ∞) = holders (w.owns fr) pa + (hs.count pa : ℕ)
  once : ∀ x y pa, w.owns fr x = some pa → w.owns fr y = some pa → x = y ∨ x.Shares y
  few : ∀ pa, hs.count pa ≤ nproc
  null : ∀ t, w.owns fr (.root t) = none → ∀ x, x.table = some t → w.owns fr x = none
  keyed : ∀ o x, w.obj o = some x → ((x.anon.getD []).map Prod.fst).Nodup
  member : ∀ p n y b pa, w.owns fr (.user p n) = some pa → w.owns fr y = some pa →
    y.backing = some b → w.place p n = some b
  base : ∀ p n n' o i i', w.place p n = some (o, i) → w.place p n' = some (o, i') →
    i + n' = i' + n
  stack : ∀ p, (w.proc p).kstack = 0 ∨ (w.proc p).kstack = kstackPage
  kept : ∀ x m, ct x = some m → ∃ pa, w.owns fr x = some pa ∧ w.mem pa = m

/-- No contents are told. -/
def untold (_ : Owner P O) : Option (Nat → UInt8) := none

/-- Nobody has a page while there is no table, no object and no process with memory. -/
theorem Tally.of_blank {w : World P O F} (hquota : ∀ pa, w.quota pa = 0)
    (hpt : ∀ t, w.pt t = .null) (hobj : ∀ o, w.obj o = none)
    (hvmas : ∀ p, (w.proc p).vmas = fun _ ↦ none)
    (hproc : ∀ p, (w.proc p).kstack = 0 ∧ (w.proc p).trapframe = none) :
    Tally untold w.frames [] w := by
  have hleaf : ∀ t n, w.leaf t n = none := by
    intro t n
    simp [World.leaf, hpt, PageTable.null]
  have howns : ∀ x, w.owns w.frames x = none := by
    intro x
    cases x with
    | user p n | image p n => simp [World.owns, userPage, hleaf]
    | stack p | frame p => simp [World.owns, World.frames, hproc]
    | root t | mid t k | low t k => simp [World.owns, hpt, PageTable.null]
    | anon o i | kbuf o i => simp [World.owns, hobj]
  have hplace : ∀ p n, w.place p n = none := by
    intro p n
    simp [World.place, view, hvmas]
  constructor
  · intro pa
    rw [hquota, holders_eq_zero.mpr fun x ↦ by simp [howns]]
    simp
  · intro x y pa hx
    simp [howns] at hx
  · simp
  · intro t _ x _
    exact howns x
  · intro o x hx
    simp [hobj] at hx
  · intro p n y b pa hx
    simp [howns] at hx
  · intro p n n' o i i' h
    simp [hplace] at h
  · exact fun p ↦ .inl (hproc p).1
  · rintro _ _ ⟨⟩

namespace Tally

variable {w w' : World P O F} {ct ct' : Owner P O → Option (Nat → UInt8)}
  {fr fr' : P → Option Nat} {hs hs' : List Nat} {pa : Nat}

/-- A page with an owner is in use. -/
theorem quota_ne_zero (h : Tally ct fr hs w) {x : Owner P O} (hx : w.owns fr x = some pa) :
    w.quota pa ≠ 0 := by
  intro hzero
  have hcount := h.count pa
  rw [hzero, Nat.cast_zero, eq_comm, add_eq_zero] at hcount
  exact holders_pos hx hcount.1

/-- A page in hand is in use. -/
theorem quota_pos_of_mem (h : Tally ct fr hs w) (hpa : pa ∈ hs) : w.quota pa ≠ 0 := by
  intro hzero
  have hcount := h.count pa
  rw [hzero, Nat.cast_zero, eq_comm, add_eq_zero, Nat.cast_eq_zero, List.count_eq_zero] at hcount
  exact hcount.2 hpa

/-- A free page has no owner and is not in hand. -/
theorem free (h : Tally ct fr hs w) (hzero : w.quota pa = 0) :
    (∀ x, w.owns fr x ≠ some pa) ∧ pa ∉ hs :=
  ⟨fun _ hx ↦ h.quota_ne_zero hx hzero, fun hpa ↦ h.quota_pos_of_mem hpa hzero⟩

/-- A page in hand that counts once has no owner. -/
theorem fresh (h : Tally ct fr (pa :: hs) w) (hone : w.quota pa = 1) (x : Owner P O) :
    w.owns fr x ≠ some pa := by
  have hcount := h.count pa
  rw [hone, List.count_cons_self] at hcount
  have hzero : holders (w.owns fr) pa = 0 := by
    generalize holders (w.owns fr) pa = k at hcount
    cases k with
    | top => cases hcount
    | coe k =>
      have : 1 = k + (hs.count pa + 1) := by exact_mod_cast hcount
      have : k = 0 := by omega
      rw [this]
      rfl
  exact holders_eq_zero.mp hzero x

/-- A page belongs to one object at most. -/
theorem backing_unique (h : Tally ct fr hs w) {y z : Owner P O} (hy : w.owns fr y = some pa)
    (hz : w.owns fr z = some pa) {b c : O × Nat} (hb : y.backing = some b)
    (hc : z.backing = some c) : y = z := by
  refine (h.once y z pa hy hz).resolve_right fun hshares ↦ ?_
  obtain ⟨p, n, rfl⟩ := hshares.eq_user hc
  cases hb

/-- Only contents and answers changed. -/
theorem congr (h : Tally ct fr hs w) (hquota : w'.quota = w.quota) (howns : w'.owns fr = w.owns fr)
    (hobj : w'.obj = w.obj) (hplace : w'.place = w.place)
    (hstack : ∀ p, (w'.proc p).kstack = (w.proc p).kstack)
    (hmem : ∀ x pa, w.owns fr x = some pa → w'.mem pa = w.mem pa) : Tally ct fr hs w' := by
  refine ⟨?_, ?_, h.few, ?_, ?_, ?_, ?_, ?_, ?_⟩
  · rw [hquota, howns]
    exact h.count
  · rw [howns]
    exact h.once
  · rw [howns]
    exact h.null
  · rw [hobj]
    exact h.keyed
  · rw [howns, hplace]
    exact h.member
  · rw [hplace]
    exact h.base
  · intro p
    rw [hstack]
    exact h.stack p
  · intro x m hx
    obtain ⟨pa, hpa, rfl⟩ := h.kept x m hx
    exact ⟨pa, by rw [howns, hpa], hmem x pa hpa⟩

/-- Other contents are told. -/
theorem known_again (h : Tally ct fr hs w)
    (hkept : ∀ x m, ct' x = some m → ∃ pa, w.owns fr x = some pa ∧ w.mem pa = m) :
    Tally ct' fr hs w :=
  ⟨h.count, h.once, h.few, h.null, h.keyed, h.member, h.base, h.stack, hkept⟩

/-- Fewer contents are told. -/
theorem weaken (h : Tally ct fr hs w) (hct : ∀ x m, ct' x = some m → ct x = some m) :
    Tally ct' fr hs w :=
  h.known_again fun x m hx ↦ h.kept x m (hct x m hx)

/-- An owner without a page has no contents. -/
theorem ct_none (h : Tally ct fr hs w) {x : Owner P O} (hx : w.owns fr x = none) :
    ct x = none := by
  cases hct : ct x with
  | none => rfl
  | some m =>
    obtain ⟨pa, hpa, -⟩ := h.kept x m hct
    rw [hx] at hpa
    cases hpa

/-- The pages in hand in another order. -/
theorem perm (h : Tally ct fr hs w) (hperm : hs.Perm hs') : Tally ct fr hs' w := by
  refine ⟨fun c ↦ ?_, h.once, fun c ↦ ?_, h.null, h.keyed, h.member, h.base, h.stack, h.kept⟩
  · rw [← hperm.count_eq]
    exact h.count c
  · rw [← hperm.count_eq]
    exact h.few c

/-! ### Few owners -/

/-- Owners of one page are told apart by their process and table, if they are user entries. -/
def tag : Owner P O → (P × Bool) ⊕ Unit
  | .user p _ => .inl (p, true)
  | .image p _ => .inl (p, false)
  | _ => .inr ()

private theorem quota_le [Fintype P] (h : Tally ct fr hs w) :
    w.quota pa ≤ 2 * Fintype.card P + 1 + hs.count pa := by
  have htag : ∀ x y, w.owns fr x = some pa → w.owns fr y = some pa → tag x = tag y → x = y := by
    intro x y hx hy htag
    refine (h.once x y pa hx hy).resolve_right fun hshares ↦ ?_
    cases x <;> cases y <;> simp_all [tag, Owner.Shares]
  have hle := holders_le tag htag
  have hcard : Fintype.card ((P × Bool) ⊕ Unit) = 2 * Fintype.card P + 1 := by
    rw [Fintype.card_sum, Fintype.card_prod, Fintype.card_bool, Fintype.card_unit, mul_comm]
  have hcount := h.count pa
  rw [hcard] at hle
  generalize holders (w.owns fr) pa = k at hle hcount
  cases k with
  | top => cases hcount
  | coe k =>
    have hk : k ≤ 2 * Fintype.card P + 1 := by exact_mod_cast hle
    have hq : w.quota pa = k + hs.count pa := by exact_mod_cast hcount
    omega

/-- With `NPROC` processes the 8-bit quota does not wrap. -/
theorem quota_lt [Fintype P] (hP : Fintype.card P ≤ nproc) (h : Tally ct fr hs w) :
    w.quota pa < 255 := by
  have hle : w.quota pa ≤ 2 * Fintype.card P + 1 + hs.count pa := h.quota_le
  have hfew := h.few pa
  unfold nproc at hP hfew
  omega

/-! ### Changes of the owners -/

/-- A page goes from the hand to an owner that had none. -/
theorem gain (h : Tally ct fr (pa :: hs) w) {x : Owner P O}
    (hrest : ∀ z, z ≠ x → w'.owns fr' z = w.owns fr z) (hx : w.owns fr x = none)
    (hx' : w'.owns fr' x = some pa) (hquota : w'.quota = w.quota)
    (hshares : ∀ z, w.owns fr z = some pa → z.Shares x)
    (hroot : ∀ t, x.table = some t → x = .root t ∨ w.owns fr (.root t) ≠ none)
    (hkeyed : ∀ o x, w'.obj o = some x → ((x.anon.getD []).map Prod.fst).Nodup)
    (hplace : w'.place = w.place)
    (hstack : ∀ p, (w'.proc p).kstack = 0 ∨ (w'.proc p).kstack = kstackPage)
    (hmember : ∀ p n y b, w'.owns fr' (.user p n) = some pa → w'.owns fr' y = some pa →
      y.backing = some b → w.place p n = some b) (hmem : w'.mem = w.mem) :
    Tally ct fr' hs w' := by
  have hkeep : ∀ z c, w'.owns fr' z = some c → z = x ∧ c = pa ∨ w.owns fr z = some c := by
    intro z c hz
    by_cases hzx : z = x
    · left
      rw [hzx, hx'] at hz
      exact ⟨hzx, (Option.some.inj hz).symm⟩
    · right
      rwa [← hrest z hzx]
  refine ⟨fun c ↦ ?_, fun y z c hy hz ↦ ?_, fun c ↦ ?_, fun t ht z hz ↦ ?_, hkeyed, ?_, ?_,
    hstack, fun z m hz ↦ ?_⟩
  · rw [hquota, h.count, holders_gain hrest hx hx' c, add_assoc]
    congr 1
    rw [List.count_cons, List.count_singleton, Nat.cast_add, add_comm]
  · rcases hkeep y c hy with ⟨rfl, rfl⟩ | hy'
    · rcases hkeep z c hz with ⟨rfl, _⟩ | hz'
      · exact .inl rfl
      · exact .inr (hshares z hz').symm
    · rcases hkeep z c hz with ⟨rfl, rfl⟩ | hz'
      · exact .inr (hshares y hy')
      · exact h.once y z c hy' hz'
  · exact (List.count_le_count_cons).trans (h.few c)
  · have hold : w.owns fr (.root t) = none := by
      by_cases hx : .root t = x
      · rw [hx, hx'] at ht
        cases ht
      · rwa [← hrest _ hx]
    by_cases hzx : z = x
    · rcases hroot t (hzx ▸ hz) with hr | hr
      · rw [hr, ht] at hx'
        cases hx'
      · exact absurd hold hr
    · rw [hrest z hzx]
      exact h.null t hold z hz
  · intro p n y b c hu hy hb
    rw [hplace]
    by_cases hc : c = pa
    · subst hc
      exact hmember p n y b hu hy hb
    · have hold : ∀ z, w'.owns fr' z = some c → w.owns fr z = some c := fun z hz ↦
        (hkeep z c hz).resolve_left fun h ↦ hc h.2
      exact h.member p n y b c (hold _ hu) (hold _ hy) hb
  · rw [hplace]
    exact h.base
  · have hzx : z ≠ x := by
      rintro rfl
      rw [h.ct_none hx] at hz
      cases hz
    rw [hrest z hzx, hmem]
    exact h.kept z m hz

/-- A page that no owner has goes from the hand to an owner. -/
theorem gain_fresh (h : Tally ct fr (pa :: hs) w) (hone : w.quota pa = 1) {x : Owner P O}
    (hrest : ∀ z, z ≠ x → w'.owns fr' z = w.owns fr z) (hx : w.owns fr x = none)
    (hx' : w'.owns fr' x = some pa) (hquota : w'.quota = w.quota)
    (hroot : ∀ t, x.table = some t → x = .root t ∨ w.owns fr (.root t) ≠ none)
    (hkeyed : ∀ o x, w'.obj o = some x → ((x.anon.getD []).map Prod.fst).Nodup)
    (hplace : w'.place = w.place)
    (hstack : ∀ p, (w'.proc p).kstack = 0 ∨ (w'.proc p).kstack = kstackPage)
    (hmem : w'.mem = w.mem) : Tally ct fr' hs w' := by
  have honly : ∀ z, w'.owns fr' z = some pa → z = x := by
    intro z hz
    by_contra hzx
    rw [hrest z hzx] at hz
    exact h.fresh hone z hz
  refine h.gain hrest hx hx' hquota (fun z hz ↦ absurd hz (h.fresh hone z)) hroot hkeyed hplace
    hstack ?_ hmem
  intro p n y b hu hy hb
  have hyu := (honly _ hy).trans (honly _ hu).symm
  subst hyu
  cases hb

/-- A page that counts once has one owner at most. -/
theorem unique (h : Tally ct fr hs w) (hone : w.quota pa = 1) {x y : Owner P O}
    (hx : w.owns fr x = some pa) (hy : w.owns fr y = some pa) : x = y := by
  have hcount := h.count pa
  have hle : {z | w.owns fr z = some pa}.encard ≤ 1 := by
    rw [hone] at hcount
    unfold holders at hcount
    generalize {z | w.owns fr z = some pa}.encard = k at hcount ⊢
    cases k with
    | top => cases hcount
    | coe k =>
      have : 1 = k + hs.count pa := by exact_mod_cast hcount
      have : k ≤ 1 := by omega
      exact_mod_cast this
  exact Set.encard_le_one_iff.mp hle x y hx hy

/-- What a class of owners has is counted. -/
theorem count_le (h : Tally ct fr hs w) {C : Owner P O → Prop} {l : List Nat}
    (hlist : ∀ a, {z | C z ∧ w.owns fr z = some a}.encard = l.count a) (c : Nat) :
    l.count c ≤ w.quota c := by
  have hsub : {z : Owner P O | C z ∧ w.owns fr z = some c} ⊆ {z | w.owns fr z = some c} :=
    fun z hz ↦ hz.2
  have hcard := Set.encard_le_encard hsub
  have hcount := h.count c
  rw [hlist] at hcard
  unfold holders at hcount
  generalize {z | w.owns fr z = some c}.encard = k at hcard hcount
  cases k with
  | top => cases hcount
  | coe k =>
    have h1 : l.count c ≤ k := by exact_mod_cast hcard
    have h2 : w.quota c = k + hs.count c := by exact_mod_cast hcount
    omega

/-- Pages in hand that nobody else has go to a class of owners that had none. -/
theorem gain_list {l : List Nat} (h : Tally ct fr (l ++ hs) w) (hone : ∀ pa ∈ l, w.quota pa = 1)
    {C : Owner P O → Prop} (hrest : ∀ z, ¬ C z → w'.owns fr z = w.owns fr z)
    (hnone : ∀ z, C z → w.owns fr z = none)
    (hlist : ∀ a, {z | C z ∧ w'.owns fr z = some a}.encard = l.count a)
    (htable : ∀ z, C z → z.table = none) (hquota : w'.quota = w.quota)
    (hkeyed : ∀ o x, w'.obj o = some x → ((x.anon.getD []).map Prod.fst).Nodup)
    (hplace : w'.place = w.place)
    (hstack : ∀ p, (w'.proc p).kstack = 0 ∨ (w'.proc p).kstack = kstackPage)
    (hcopy : w'.mem = w.mem) : Tally ct fr hs w' := by
  have hcount : ∀ c, (w'.quota c : ℕ∞) = holders (w'.owns fr) c + (hs.count c : ℕ) := by
    intro c
    rw [hquota, h.count, holders_drop (fun z hz ↦ (hrest z hz).symm) hnone hlist c,
      List.count_append, Nat.cast_add, add_assoc]
  -- a page that went is in the list, so it has one owner now
  have hmem : ∀ z c, C z → w'.owns fr z = some c → c ∈ l := by
    intro z c hz hc
    rw [← List.count_pos_iff, Nat.pos_iff_ne_zero]
    intro hzero
    have hempty := hlist c
    rw [hzero, Nat.cast_zero, Set.encard_eq_zero, Set.eq_empty_iff_forall_notMem] at hempty
    exact hempty z ⟨hz, hc⟩
  have honly : ∀ y z c, C y → w'.owns fr y = some c → w'.owns fr z = some c → y = z := by
    intro y z c hy hyc hzc
    have hle : {z | w'.owns fr z = some c}.encard ≤ 1 := by
      have hc := hcount c
      rw [hquota, hone c (hmem y c hy hyc)] at hc
      unfold holders at hc
      generalize {z | w'.owns fr z = some c}.encard = k at hc ⊢
      cases k with
      | top => cases hc
      | coe k =>
        have : 1 = k + hs.count c := by exact_mod_cast hc
        have : k ≤ 1 := by omega
        exact_mod_cast this
    exact Set.encard_le_one_iff.mp hle y z hyc hzc
  refine ⟨hcount, fun y z c hy hz ↦ ?_, fun c ↦ ?_, fun t ht z hz ↦ ?_, hkeyed, ?_, ?_, hstack,
    fun z m hz ↦ ?_⟩
  · by_cases hyC : C y
    · exact .inl (honly y z c hyC hy hz)
    · by_cases hzC : C z
      · exact .inl (honly z y c hzC hz hy).symm
      · rw [hrest y hyC] at hy
        rw [hrest z hzC] at hz
        exact h.once y z c hy hz
  · have := h.few c
    rw [List.count_append] at this
    omega
  · have hroot : ¬ C (.root t) := fun hC ↦ nomatch htable _ hC
    have hzC : ¬ C z := fun hC ↦ by
      rw [htable z hC] at hz
      cases hz
    rw [hrest _ hroot] at ht
    rw [hrest z hzC]
    exact h.null t ht z hz
  · intro p n y b c hu hy hb
    rw [hplace]
    have huC : ¬ C (.user p n) := fun hC ↦ nomatch htable _ hC
    by_cases hyC : C y
    · have heq := honly y _ c hyC hy hu
      subst heq
      cases hb
    · rw [hrest _ huC] at hu
      rw [hrest y hyC] at hy
      exact h.member p n y b c hu hy hb
  · rw [hplace]
    exact h.base
  · have hzC : ¬ C z := by
      intro hC
      rw [h.ct_none (hnone z hC)] at hz
      cases hz
    rw [hrest z hzC, hcopy]
    exact h.kept z m hz

/-- A class of owners give up the pages that the list `l` tells, and the quotas go down or the
pages are in hand. -/
theorem drop (h : Tally ct fr hs w) {C : Owner P O → Prop} {l : List Nat}
    (hrest : ∀ z, ¬ C z → w'.owns fr' z = w.owns fr z) (hnone : ∀ z, C z → w'.owns fr' z = none)
    (hlist : ∀ a, {z | C z ∧ w.owns fr z = some a}.encard = l.count a)
    (hroot : ∀ t, C (.root t) → ∀ z, z.table = some t → C z)
    (hfew : ∀ c, hs'.count c ≤ nproc)
    (hquota : ∀ c, w'.quota c + l.count c + hs.count c = w.quota c + hs'.count c)
    (hkeyed : ∀ o x, w'.obj o = some x → ((x.anon.getD []).map Prod.fst).Nodup)
    (hplace : w'.place = w.place)
    (hstack : ∀ p, (w'.proc p).kstack = 0 ∨ (w'.proc p).kstack = kstackPage)
    (hct : ∀ z, C z → ct z = none) (hmem : ∀ c, w'.quota c ≠ 0 → w'.mem c = w.mem c) :
    Tally ct fr' hs' w' := by
  have hkeep : ∀ z c, w'.owns fr' z = some c → w.owns fr z = some c := by
    intro z c hz
    by_cases hzC : C z
    · rw [hnone z hzC] at hz
      cases hz
    · rwa [← hrest z hzC]
  have hcount' : ∀ c, (w'.quota c : ℕ∞) = holders (w'.owns fr') c + (hs'.count c : ℕ) := by
    intro c
    have hcount := h.count c
    have hq := hquota c
    rw [holders_drop hrest hnone hlist c] at hcount
    generalize holders (w'.owns fr') c = k at hcount
    cases k with
    | top => cases hcount
    | coe k =>
      have hcount' : w.quota c = k + l.count c + hs.count c := by exact_mod_cast hcount
      have : w'.quota c = k + hs'.count c := by omega
      rw [this]
      push_cast
      rfl
  refine ⟨hcount', fun y z c hy hz ↦ h.once y z c (hkeep y c hy) (hkeep z c hz), hfew,
    fun t ht z hz ↦ ?_, hkeyed, fun p n y b c hu hy hb ↦ ?_, ?_, hstack, fun z m hz ↦ ?_⟩
  · by_cases hzC : C z
    · exact hnone z hzC
    · rw [hrest z hzC]
      by_cases ht' : C (.root t)
      · exact absurd (hroot t ht' z hz) hzC
      · exact h.null t (by rwa [← hrest _ ht']) z hz
  · rw [hplace]
    exact h.member p n y b c (hkeep _ c hu) (hkeep _ c hy) hb
  · rw [hplace]
    exact h.base
  · have hzC : ¬ C z := by
      intro hC
      rw [hct z hC] at hz
      cases hz
    obtain ⟨pa, hpa, rfl⟩ := h.kept z m hz
    rw [← hrest z hzC] at hpa
    refine ⟨pa, hpa, hmem pa fun hzero ↦ ?_⟩
    have hcount := hcount' pa
    rw [hzero, Nat.cast_zero, eq_comm, add_eq_zero] at hcount
    exact holders_pos hpa hcount.1

/-- An owner gives its page up, and the quota goes down or the page is in hand. -/
theorem lose (h : Tally ct fr hs w) {x : Owner P O}
    (hrest : ∀ z, z ≠ x → w'.owns fr' z = w.owns fr z) (hx : w.owns fr x = some pa)
    (hx' : w'.owns fr' x = none) (hroot : ∀ t, x ≠ .root t) (hfew : ∀ c, hs'.count c ≤ nproc)
    (hquota : ∀ c, w'.quota c + [pa].count c + hs.count c = w.quota c + hs'.count c)
    (hkeyed : ∀ o x, w'.obj o = some x → ((x.anon.getD []).map Prod.fst).Nodup)
    (hplace : w'.place = w.place)
    (hstack : ∀ p, (w'.proc p).kstack = 0 ∨ (w'.proc p).kstack = kstackPage)
    (hct : ct x = none) (hmem : ∀ c, w'.quota c ≠ 0 → w'.mem c = w.mem c) :
    Tally ct fr' hs' w' := by
  refine h.drop (C := (· = x)) hrest ?_ (fun a ↦ ?_) ?_ hfew hquota hkeyed hplace hstack ?_ hmem
  · rintro z rfl
    exact hx'
  · exact encard_one hx a
  · intro t ht
    exact absurd ht.symm (hroot t)
  · rintro z rfl
    exact hct

/-- Mappings change where nothing is mapped, or not in what they say of places. -/
theorem views (h : Tally ct fr hs w) (hquota : w'.quota = w.quota)
    (howns : w'.owns fr = w.owns fr) (hobj : w'.obj = w.obj)
    (hstack : ∀ p, (w'.proc p).kstack = (w.proc p).kstack)
    (hplace : ∀ p n y, w.place p n = some y → w.owns fr (.user p n) ≠ none →
      w'.place p n = some y)
    (hbase : ∀ p n n' o i i', w'.place p n = some (o, i) → w'.place p n' = some (o, i') →
      i + n' = i' + n) (hmem : w'.mem = w.mem) : Tally ct fr hs w' := by
  refine ⟨?_, ?_, h.few, ?_, ?_, ?_, hbase, ?_, ?_⟩
  · rw [hquota, howns]
    exact h.count
  · rw [howns]
    exact h.once
  · rw [howns]
    exact h.null
  · rw [hobj]
    exact h.keyed
  · rw [howns]
    intro p n y b c hu hy hb
    apply hplace p n _ (h.member p n y b c hu hy hb)
    rw [hu]
    exact Option.some_ne_none c
  · intro p
    rw [hstack]
    exact h.stack p
  · rw [howns, hmem]
    exact h.kept

end Tally

end Xv6K210.Vm
