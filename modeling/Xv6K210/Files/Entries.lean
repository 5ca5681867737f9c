import Xv6K210.Files.Invariant

/-!
# The references to entries

The count of a cached entry is the number of open files, of processes and of cached
children that refer to it.
-/

namespace Xv6K210.Files

open Xv6K210.Base Xv6K210.Fs Xv6K210.Ecache Prog
open Xv6K210.Vm (nofile)

variable {P F O S : Type}

/-- The entries that the cached entries in use have as their parents. -/
def World.childEnt (w : World P F O S) (s : S) : Option (Ent S) :=
  if 0 < (w.cache.ent (.entry s)).ref then (w.cache.ent (.entry s)).parent else none

private theorem childEnt_eq_link {w : World P F O S} (h : Settled w.cache) :
    w.childEnt = w.cache.link := by
  ext s : 1
  unfold World.childEnt Cache.link Dirent.link
  by_cases hr : 0 < (w.cache.ent (.entry s)).ref
  · rw [if_pos hr, if_pos ⟨hr, h s hr⟩]
  · rw [if_neg hr, if_neg fun h ↦ hr h.1]

variable [DecidableEq S] [Fintype P] [Fintype F] [Fintype S]

/-- The number of users of an entry: files, directories of processes, and children. -/
def World.uses (w : World P F O S) (e : Ent S) : Nat :=
  refs w.fileEnt e + refs w.cwdEnt e + refs w.childEnt e

section

variable [DecidableEq P] [DecidableEq F] [DecidableEq O] [Fintype O]

omit [DecidableEq S] [Fintype S] in
/-- After every run of the calls in which no device file that was opened is closed for good: the
count of every entry is the number of its users, the slot that is recycled next has none, and
there is one as long as some slot has none. -/
theorem entry_refs {devices : Nat → Option FileOps} {ftable : List F} {n rootClus : Nat}
    {es : List (Event P O)} {w : World P F O (Fin n)}
    (h : Runs (Step devices ftable) (World.boot n rootClus) es w) (hopen : w.dropped = []) :
    (∀ e, (w.cache.ent e).ref = w.uses e) ∧
      (∀ s, w.cache.victim = some s → w.uses (.entry s) = 0) ∧
      ((∃ s, w.uses (.entry s) = 0) → w.cache.victim ≠ none) := by
  have hbooks : Books False w := by
    apply Runs.invariant (fun w ↦ Books False w) ?_ h (books_boot n rootClus)
    exact fun w1 e w2 hb hstep ↦ hb.step hstep fun hfalse ↦ hfalse.elim
  have hcount : ∀ e, (w.cache.ent e).ref = w.uses e := by
    intro e
    have := hbooks.cache.count e
    unfold World.uses
    rw [childEnt_eq_link hbooks.settled]
    unfold World.users at this
    rw [hopen, List.count_nil] at this
    omega
  refine ⟨hcount, fun s hvictim ↦ ?_, ?_⟩
  · obtain ⟨-, hunused⟩ := lastWith_some hvictim
    rw [← hcount]
    exact of_decide_eq_true hunused
  · rintro ⟨s, hs⟩ hnone
    have hused := List.find?_eq_none.mp hnone s
      (List.mem_reverse.mpr (hbooks.cache.shape.all s))
    rw [← hcount] at hs
    exact hused (decide_eq_true hs)

end

/-! ### Runs that compute -/

section

variable [DecidableEq P] [DecidableEq F] [DecidableEq O]

omit [DecidableEq P] [DecidableEq O] [DecidableEq S] [Fintype F] [Fintype S] in
instance (w : World P F O S) (call : Call P O) : Decidable (Enabled w call) :=
  match call with
  | .start _ => inferInstanceAs (Decidable (∀ _, _))
  | .open _ _ _ _ _ => inferInstanceAs (Decidable (_ = _))
  | .mkdir _ _ _ => inferInstanceAs (Decidable (_ = _))
  | .mknod _ _ _ _ _ => inferInstanceAs (Decidable (_ = _))
  | .remove _ _ => inferInstanceAs (Decidable (_ = _))
  | .chdir _ _ => inferInstanceAs (Decidable (_ = _))
  | .dup _ _ => inferInstanceAs (Decidable (_ = _))
  | .close _ _ => inferInstanceAs (Decidable (_ = _))
  | .use _ _ _ => inferInstanceAs (Decidable (_ = _))
  | .pipe _ _ _ => inferInstanceAs (Decidable (_ = _))
  | .mmap _ _ _ _ _ => inferInstanceAs (Decidable (_ ∧ _))
  | .munmap _ _ => inferInstanceAs (Decidable (_ = _))
  | .fork _ _ => inferInstanceAs (Decidable (_ ∧ _))
  | .exec _ _ _ _ => inferInstanceAs (Decidable (_ = _))
  | .exit _ _ => inferInstanceAs (Decidable (_ = _))

/-- The state after some calls, if they are all `ok` and return. -/
def World.after (devices : Nat → Option FileOps) (ftable : List F)
    (ok : World P F O S → Event P O → Bool) :
    World P F O S → List (Event P O) → Option (World P F O S)
  | w, [] => some w
  | w, e :: es =>
    if Enabled w e.call ∧ ok w e then
      match runCall devices ftable e.call (w.answers e) with
      | .ok (_, w') => w'.after devices ftable ok es
      | .error _ => none
    else
      none

omit [Fintype F] [Fintype S] in
/-- Calls that compute are a run, to a state with what is computed to hold there. -/
theorem exists_run_of (devices : Nat → Option FileOps) (ftable : List F)
    (ok : World P F O S → Event P O → Bool) (w : World P F O S) (es : List (Event P O))
    (check : World P F O S → Bool) (h : (w.after devices ftable ok es).any check = true) :
    ∃ w', Runs (fun w e w' ↦ Step devices ftable w e w' ∧ ok w e = true) w es w' ∧
      check w' = true := by
  induction es generalizing w with
  | nil => exact ⟨w, .nil w, h⟩
  | cons e es ih =>
    rw [World.after] at h
    split at h
    next hen =>
      split at h
      next u w1 heq =>
        obtain ⟨w2, hrun, hcheck⟩ := ih w1 h
        exact ⟨w2, .cons ⟨⟨hen.1, heq⟩, hen.2⟩ hrun, hcheck⟩
      next => cases h
    next => cases h

omit [Fintype F] [Fintype S] in
/-- Calls that compute are a run. -/
theorem exists_run (devices : Nat → Option FileOps) (ftable : List F) (w : World P F O S)
    (es : List (Event P O)) (check : World P F O S → Bool)
    (h : (w.after devices ftable (fun _ _ ↦ true) es).any check = true) :
    ∃ w', Runs (Step devices ftable) w es w' ∧ check w' = true := by
  obtain ⟨w', hrun, hcheck⟩ := exists_run_of devices ftable (fun _ _ ↦ true) w es check h
  exact ⟨w', hrun.mono fun _ _ _ hstep ↦ hstep.1, hcheck⟩

end

/-- The first process opens the root. -/
theorem entry_refs_small : ∃ es, ∃ w : World Bool (Fin 2) Unit (Fin 2),
    Runs (Step (fun _ ↦ none) [0, 1]) (World.boot 2 2) es w ∧
      (w.cache.ent .root).ref = w.uses .root ∧ w.uses .root = 2 := by
  let calls : List (Event Bool Unit) := [⟨.start true, [], [], []⟩,
    ⟨.open true [0x2f] 0 0 .fails, [], [], []⟩]
  obtain ⟨w, hrun, hcheck⟩ := exists_run (fun _ ↦ none) [0, 1]
    (World.boot 2 2 : World Bool (Fin 2) Unit (Fin 2)) calls
    (fun w ↦ w.dropped = [] ∧ w.uses .root = 2) (by decide +kernel)
  obtain ⟨hopen, huses⟩ := of_decide_eq_true hcheck
  exact ⟨calls, w, hrun, (entry_refs hrun hopen).1 .root, huses⟩

/-- The root has no reference beside those of its users. -/
theorem root_not_pinned : ∃ es, ∃ w : World Bool (Fin 2) Unit (Fin 2),
    Runs (Step (fun _ ↦ none) [0, 1]) (World.boot 2 2) es w ∧
      (w.cache.ent .root).ref ≠ w.uses .root + 1 := by
  let calls : List (Event Bool Unit) := [⟨.start true, [], [], []⟩]
  obtain ⟨w, hrun, hcheck⟩ := exists_run (fun _ ↦ none) [0, 1]
    (World.boot 2 2 : World Bool (Fin 2) Unit (Fin 2)) calls
    (fun w ↦ (w.cache.ent .root).ref ≠ w.uses .root + 1) (by decide +kernel)
  exact ⟨calls, w, hrun, of_decide_eq_true hcheck⟩

end Xv6K210.Files
