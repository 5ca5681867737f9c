import Xv6K210.Base.Runs
import Xv6K210.Ecache.Lookup

/-!
# What the slots of the entry cache hold

Callers look entries up, create, remove, duplicate and give back, each within
the references that it holds. A slot that is found as the cache of an entry is never one whose
parent slot was recycled in between.
-/

namespace Xv6K210.Ecache

open Xv6K210.Base Xv6K210.Fs Prog

variable {S : Type} [DecidableEq S]

/-- The cache, and the references that callers hold. -/
structure Users (S : Type) where
  cache : Cache S
  held : List (Ent S)

/-- What a caller asks for. Paths start at the root or at an entry that is held. -/
inductive Op (S : Type) where
  | lookup (cwd : Ent S) (path : List UInt8)
  | find (dp : Ent S) (name : List UInt8)
  | create (cwd : Ent S) (path : List UInt8) (kind : NodeKind) (major minor off : Nat)
  | remove (cwd : Ent S) (path : List UInt8)
  | dup (e : Ent S)
  | put (e : Ent S)

/-- The references that are held after an operation. -/
def Op.run : Op S → List (Ent S) → Cached S (List (Ent S))
  | .lookup cwd path, held => return (← ename cwd path).toList ++ held
  | .find dp name, held => return (← dirlookup dp name).toList ++ held
  | .create cwd path kind major minor off, held =>
    return (← Ecache.create cwd path kind major minor off).toList ++ held
  | .remove cwd path, held => do
    let _ ← sysRemove cwd path
    pure held
  | .dup e, held => do
    edup e
    pure (e :: held)
  | .put e, held => do
    eput e
    pure (held.erase e)

/-- The reference discipline of the callers. -/
def Op.Legal (held : List (Ent S)) : Op S → Prop
  | .lookup cwd _ => cwd = .root ∨ cwd ∈ held
  | .find dp _ => dp ∈ held
  | .create cwd _ _ _ _ _ => cwd = .root ∨ cwd ∈ held
  | .remove cwd _ => cwd = .root ∨ cwd ∈ held
  | .dup e => e = .root ∨ e ∈ held
  | .put e => e ∈ held

instance (held : List (Ent S)) (op : Op S) : Decidable (op.Legal held) :=
  match op with
  | .lookup _ _ => inferInstanceAs (Decidable (_ ∨ _))
  | .find _ _ => inferInstanceAs (Decidable (_ ∈ _))
  | .create _ _ _ _ _ _ => inferInstanceAs (Decidable (_ ∨ _))
  | .remove _ _ => inferInstanceAs (Decidable (_ ∨ _))
  | .dup _ => inferInstanceAs (Decidable (_ ∨ _))
  | .put _ => inferInstanceAs (Decidable (_ ∈ _))

/-- An operation with the answers of the disk. -/
structure Event (S : Type) where
  op : Op S
  found : List (Option Found)
  empty : List Bool
  clusters : List Nat

/-- The state after an operation that returns. -/
def Users.next (u : Users S) (e : Event S) : Option (Users S) :=
  if e.op.Legal u.held then
    match e.op.run u.held
      { u.cache with found := e.found, empty := e.empty, clusters := e.clusters } with
    | .ok (held, c) => some ⟨c, held⟩
    | .error _ => none
  else
    none

/-- The cache after `fat32_init`: the root, and `n` slots that were put in front one by one. -/
def Users.boot (n rootClus : Nat) : Users (Fin n) where
  cache :=
    { ent := fun e ↦
        ⟨[], if e = .root then 0x14 else 0, if e = .root then rootClus else 0, 0, 0, false,
          if e = .root then 1 else 0, 0, none, 0, 0⟩
      order := (List.finRange n).reverse
      fills := 1
      found := []
      empty := []
      clusters := [] }
  held := []

/-- The state after a list of operations. -/
def Users.after : Users S → List (Event S) → Option (Users S)
  | u, [] => some u
  | u, e :: es => (u.next e).bind fun u' ↦ u'.after es

/-! ### The invariant -/

section

variable [Fintype S]

/-- The references that are held are the ones that are counted. -/
def Users.Sound (u : Users S) : Prop :=
  Ecache.Sound (fun e ↦ (u.held.count e : Int)) u.cache ∧ Settled u.cache

omit [Fintype S] in
/-- One reference more is held. -/
theorem count_cons (held : List (Ent S)) (r : Option (Ent S)) (e : Ent S) :
    ((r.toList ++ held).count e : Int) = (held.count e : Int) + holds r e := by
  cases r with
  | none => simp
  | some x =>
    rw [Option.toList_some, List.singleton_append, List.count_cons]
    unfold holds
    by_cases hx : x = e
    · simp [hx]
    · simp [hx]

omit [Fintype S] in
/-- One reference less is held. -/
theorem count_erase {held : List (Ent S)} {e : Ent S} (h : e ∈ held) (x : Ent S) :
    ((held.erase e).count x : Int) + holds (some e) x = held.count x := by
  unfold holds
  by_cases hx : e = x
  · subst hx
    have hpos := List.count_pos_iff.mpr h
    rw [List.count_erase_self, if_pos rfl]
    omega
  · rw [List.count_erase_of_ne (by simpa using Ne.symm hx)]
    simp [hx]

/-- A directory that is held is counted. -/
theorem Users.sound_cwd {u : Users S} (h : u.Sound) {cwd : Ent S}
    (hcwd : cwd = .root ∨ cwd ∈ u.held) : cwd = .root ∨ 0 < (u.cache.ent cwd).ref := by
  rcases hcwd with rfl | hheld
  · exact .inl rfl
  · right
    apply h.1.ref_pos
    exact_mod_cast List.count_pos_iff.mpr hheld

/-- An operation keeps the count of the references. -/
theorem Op.run_sound {u : Users S} (h : u.Sound) {op : Op S} (hlegal : op.Legal u.held) :
    Ensures (op.run u.held) u.cache fun held c' ↦ (⟨c', held⟩ : Users S).Sound := by
  have hd : ∀ e, (0 : Int) ≤ (u.held.count e : Int) := fun e ↦ Int.natCast_nonneg _
  have hgain : ∀ {c' : Cache S} (r : Option (Ent S)),
      Ecache.Sound (fun e ↦ (u.held.count e : Int) + holds r e) c' ∧ Settled c' →
        (⟨c', r.toList ++ u.held⟩ : Users S).Sound := by
    rintro c' r ⟨h', hs'⟩
    refine ⟨h'.congr ?_, hs'⟩
    intro e
    exact count_cons u.held r e
  cases op with
  | lookup cwd path =>
    change Ensures (ename cwd path >>= fun r ↦ pure (r.toList ++ u.held)) u.cache _
    simp only [ensures_bind, ensures_pure]
    exact (ename_sound h.1 hd h.2 path (Users.sound_cwd h hlegal)).mono fun r _ h' ↦ hgain r h'
  | find dp name =>
    change Ensures (dirlookup dp name >>= fun r ↦ pure (r.toList ++ u.held)) u.cache _
    simp only [ensures_bind, ensures_pure]
    have hdp : 0 < (u.cache.ent dp).ref := by
      apply h.1.ref_pos
      exact_mod_cast List.count_pos_iff.mpr hlegal
    apply (dirlookup_sound h.1 hd h.2 name hdp).mono
    rintro r c' ⟨h', hs', -⟩
    exact hgain r ⟨h', hs'⟩
  | create cwd path kind major minor off =>
    change Ensures (Ecache.create cwd path kind major minor off >>= fun r ↦
      pure (r.toList ++ u.held)) u.cache _
    simp only [ensures_bind, ensures_pure]
    exact (create_sound h.1 hd h.2 path kind major minor off (Users.sound_cwd h hlegal)).mono
      fun r _ h' ↦ hgain r h'
  | remove cwd path =>
    change Ensures (sysRemove cwd path >>= fun _ ↦ pure u.held) u.cache _
    simp only [ensures_bind, ensures_pure]
    exact (sysRemove_sound h.1 hd h.2 path (Users.sound_cwd h hlegal)).mono fun _ _ h' ↦ h'
  | dup e =>
    change Ensures (edup e >>= fun _ ↦ pure (e :: u.held)) u.cache _
    simp only [ensures_bind, ensures_pure]
    have he := Users.sound_cwd h hlegal
    apply (edup_sound h.1 he).mono
    rintro _ c' ⟨h', halike, -, hsame⟩
    apply hgain (some e)
    refine ⟨h', ?_⟩
    apply h.2.dup halike
    intro t ht
    left
    by_cases hte : Ent.entry t = e
    · rw [hte]
      exact he.resolve_left (by rw [← hte]; simp)
    · rwa [hsame _ hte] at ht
  | put e =>
    change Ensures (eput e >>= fun _ ↦ pure (u.held.erase e)) u.cache _
    simp only [ensures_bind, ensures_pure]
    have h' : Ecache.Sound (fun x ↦ ((u.held.erase e).count x : Int) + holds (some e) x)
        u.cache := h.1.congr (count_erase hlegal)
    exact (eput_settled (fun _ ↦ Int.natCast_nonneg _) h' h.2).mono fun _ _ h ↦ h

/-- A call keeps the cache sound. -/
theorem Users.sound_next {u u' : Users S} {e : Event S} (h : u.Sound)
    (hstep : u.next e = some u') : u'.Sound := by
  unfold Users.next at hstep
  split_ifs at hstep with hlegal
  split at hstep
  · rename_i held c heq
    cases hstep
    have hsame : Same u.cache
        { u.cache with found := e.found, empty := e.empty, clusters := e.clusters } :=
      .of_ent rfl rfl
    have h' : (⟨{ u.cache with found := e.found, empty := e.empty, clusters := e.clusters },
        u.held⟩ : Users S).Sound := ⟨h.1.same hsame, h.2.same hsame⟩
    exact (Op.run_sound h' hlegal).of_ok held c heq
  · cases hstep

/-- The cache is sound at first. -/
theorem Users.sound_boot (n rootClus : Nat) : (Users.boot n rootClus).Sound := by
  refine ⟨⟨?_, ?_⟩, ?_⟩
  · intro e
    have hlinks : refs (Cache.link (Users.boot n rootClus).cache) e = 0 := refs_none e
    rw [hlinks]
    rfl
  · refine ⟨?_, ?_, ?_, ?_, ?_, ?_⟩
    · exact List.nodup_reverse.mpr (List.nodup_finRange n)
    · intro s
      exact List.mem_reverse.mpr (List.mem_finRange s)
    · change (1 : Int) ≠ 0
      decide
    · intro s hv
      exact absurd rfl hv
    · intro s p hv
      cases hv
    · intro s t hv
      cases hv
  · intro s hr
    cases hr

/-- A run of operations that return. -/
def Users.Step (u : Users S) (e : Event S) (u' : Users S) : Prop := u.next e = some u'

/-- The cache is sound after every run. -/
theorem Users.sound_of_runs {n rootClus : Nat} {es : List (Event (Fin n))} {u : Users (Fin n)}
    (h : Runs Users.Step (Users.boot n rootClus) es u) : u.Sound := by
  apply Runs.invariant (fun u ↦ Users.Sound u) (fun _ _ _ hs hstep ↦ Users.sound_next hs hstep) h
  exact Users.sound_boot n rootClus

/-- After every run: when `eget` for a directory in use returns a filled slot, it is the slot of
an entry of the directory that the parent slot holds now; an unused cached entry stands behind
its unused parent; and the slot that is recycled next is the parent of no cached entry. -/
theorem entry_identity {n rootClus : Nat} {es : List (Event (Fin n))} {u : Users (Fin n)}
    (h : Runs Users.Step (Users.boot n rootClus) es u) :
    (∀ p name s c', 0 < (u.cache.ent p).ref → eget p name u.cache = .ok (s, c') →
      (c'.ent (.entry s)).valid = 1 →
        (c'.ent (.entry s)).parent = some p ∧ (c'.ent p).valid ≠ 0 ∧
          (c'.ent (.entry s)).home = (c'.ent p).born ∧
          sameName (c'.ent (.entry s)).filename name = true) ∧
    (∀ s t, (u.cache.ent (.entry s)).valid = 1 → (u.cache.ent (.entry s)).ref = 0 →
      (u.cache.ent (.entry s)).parent = some (.entry t) → (u.cache.ent (.entry t)).ref = 0 →
        Before u.cache.order t s) ∧
    ∀ v s, u.cache.victim = some v → (u.cache.ent (.entry s)).valid = 1 →
      (u.cache.ent (.entry s)).parent ≠ some (.entry v) := by
  have hsound := Users.sound_of_runs h
  have hd : ∀ e, (0 : Int) ≤ (u.held.count e : Int) := fun e ↦ Int.natCast_nonneg _
  refine ⟨?_, hsound.1.shape.order, ?_⟩
  · intro p name s c' hp heq hv
    obtain ⟨-, hkept, hgot⟩ := (eget_sound hsound.1 hd hsound.2 name hp).of_ok s c' heq
    cases hgot with
    | hit _ _ hpar hhome hname _ =>
      obtain ⟨-, hvp, -, hborn, -⟩ := hkept p hp
      refine ⟨hpar, ?_, by rw [hhome, hborn], hname⟩
      rw [hvp]
      cases p with
      | root => exact hsound.1.shape.root
      | entry t => exact hsound.2 t hp
    | miss _ hzero =>
      rw [hzero] at hv
      cases hv
  · intro v s hvictim hv
    exact hsound.1.victim_childless hd hvictim hv

end

/-- Operations that compute are a run. -/
theorem Users.runs_of_after {es : List (Event S)} {u u' : Users S} (h : u.after es = some u') :
    Runs Users.Step u es u' := by
  induction es generalizing u with
  | nil =>
    obtain rfl := Option.some.inj h
    exact .nil _
  | cons e es ih =>
    rw [Users.after, Option.bind_eq_some_iff] at h
    obtain ⟨u1, hnext, hafter⟩ := h
    exact .cons hnext (ih hafter)

/-- The directory `/a` is made and found again. -/
theorem entry_identity_small : ∃ u : Users (Fin 2), ∃ s c',
    eget .root [0x61] u.cache = .ok (s, c') ∧ (c'.ent (.entry s)).parent = some .root ∧
      (c'.ent (.entry s)).home = (c'.ent .root).born := by
  let mkdir : Event (Fin 2) := ⟨.create .root [0x2f, 0x61] .dir 0 0 0, [none], [], [3]⟩
  have hafter : ((Users.boot 2 2).after [mkdir]).any (fun u ↦
      decide (0 < (u.cache.ent .root).ref) && match eget .root [0x61] u.cache with
        | .ok (s, c') => decide ((c'.ent (.entry s)).valid = 1)
        | .error _ => false) := by
    decide +kernel
  obtain ⟨u, hu, hgood⟩ := (Option.any_eq_true _ _).mp hafter
  rw [Bool.and_eq_true, decide_eq_true_iff] at hgood
  obtain ⟨hroot, hhit⟩ := hgood
  have hrun := Users.runs_of_after hu
  cases heq : eget .root [0x61] u.cache with
  | error msg =>
    rw [heq] at hhit
    cases hhit
  | ok r =>
    obtain ⟨s, c'⟩ := r
    rw [heq] at hhit
    obtain ⟨hpar, -, hhome, -⟩ :=
      (entry_identity hrun).1 .root [0x61] s c' hroot heq (of_decide_eq_true hhit)
    exact ⟨u, s, c', heq, hpar, hhome⟩

end Xv6K210.Ecache
