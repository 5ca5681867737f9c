import Xv6K210.Vm.Faults
import Xv6K210.Vm.Isolation

/-!
# Copies from user memory

Source `kernel/vm/vmcopyin.c:23–103`, `kernel/trap/trap.c:186–200`. `copyin_new` and `copyinstr_new`
load from the addresses of the user as they are, through the kernel table of the process.
`kerneltrap` resolves a fault of such a load, which is then made again, or leaves the copy. The
timer may take the processor from the process between any two loads, so other processes make calls
in between.
-/

namespace Xv6K210.Vm

open Xv6K210.Base Prog

/-- A copy: the load that it makes next, and how it goes on; or what it returns, with the bytes in
`dst` where that is 0. -/
inductive Copy where
  | ret (dst : Option (List UInt8))
  | load (va : Nat) (next : UInt8 → Copy)

/-! ### The routines -/

/-- The inner loops: `n` bytes are copied, unless one of them ends the string. -/
def copyChunk (ends : UInt8 → Bool) (rest : List UInt8 → Copy) : Nat → Nat → List UInt8 → Copy
  | 0, _, dst => rest dst
  | n + 1, va, dst => .load va fun c ↦
    if ends c then .ret (some dst) else copyChunk ends rest n (va + 1) (dst ++ [c])

/-- The outer loop of `copyin_new`, in at most so many turns. -/
def copyLoop : Nat → Nat → Nat → List UInt8 → Copy
  | 0, _, _, dst => .ret (some dst)
  | k + 1, va, stop, dst =>
    if va < stop then
      let n := min (pgsize - va % pgsize) (stop - va)
      copyChunk (fun _ ↦ false) (copyLoop k (va + n) stop) n va dst
    else .ret (some dst)

/-- `copyin_new`. Every turn of the outer loop copies a byte. -/
def copyinNew (srcva len : Nat) : Copy :=
  if maxuva ≤ srcva ∨ maxuva - srcva < len then .ret none
  else copyLoop len srcva (srcva + len) []

/-- The outer loop of `copyinstr_new`, in at most so many turns. -/
def strLoop : Nat → Nat → Nat → List UInt8 → Copy
  | 0, _, _, _ => .ret none
  | k + 1, va, max, dst =>
    if 0 < max then
      if maxuva ≤ va then .ret none
      else
        let n := min (pgsize - va % pgsize) max
        copyChunk (· == 0) (strLoop k (va + n) (max - n)) n va dst
    else .ret none

/-- `copyinstr_new`, with `dst` up to the null byte. Every turn of the outer loop goes through a
byte. -/
def copyinstrNew (srcva max : Nat) : Copy :=
  if maxuva ≤ srcva then .ret none else strLoop max srcva max []

/-! ### The bytes of a copy -/

/-- A copy that was given these bytes at these addresses. -/
inductive Copy.Follows : Copy → List (Nat × UInt8) → Copy → Prop where
  | nil (c : Copy) : Follows c [] c
  | cons {va : Nat} {next : UInt8 → Copy} {x : UInt8} {xs : List (Nat × UInt8)} {c : Copy}
      (h : Follows (next x) xs c) : Follows (.load va next) ((va, x) :: xs) c

/-- A copy makes at most so many loads. -/
def Copy.Within : Copy → Nat → Prop
  | .ret _, _ => True
  | .load _ _, 0 => False
  | .load _ next, k + 1 => ∀ x, (next x).Within k

/-- A bound may grow. -/
theorem Copy.Within.mono {c : Copy} {k l : Nat} (h : c.Within k) (hkl : k ≤ l) : c.Within l := by
  induction c generalizing k l with
  | ret dst => trivial
  | load va next ih =>
    cases k with
    | zero => exact h.elim
    | succ k =>
      cases l with
      | zero => exact absurd hkl (Nat.not_succ_le_zero k)
      | succ l => exact fun x ↦ ih x (h x) (Nat.le_of_succ_le_succ hkl)

private theorem copyChunk_within {ends : UInt8 → Bool} {rest : List UInt8 → Copy} {k : Nat}
    (h : ∀ dst, (rest dst).Within k) (n va : Nat) (dst : List UInt8) :
    (copyChunk ends rest n va dst).Within (n + k) := by
  induction n generalizing va dst with
  | zero =>
    rw [Nat.zero_add]
    exact h dst
  | succ n ih =>
    rw [Nat.add_right_comm]
    intro c
    dsimp only
    split_ifs
    · trivial
    · exact ih (va + 1) (dst ++ [c])

private theorem copyLoop_within (k va stop : Nat) (dst : List UInt8) :
    (copyLoop k va stop dst).Within (stop - va) := by
  induction k generalizing va dst with
  | zero => trivial
  | succ k ih =>
    unfold copyLoop
    by_cases hlt : va < stop
    · rw [if_pos hlt]
      apply (copyChunk_within (ih (va + min (pgsize - va % pgsize) (stop - va))) _ va dst).mono
      omega
    · rw [if_neg hlt]
      trivial

private theorem strLoop_within (k va max : Nat) (dst : List UInt8) :
    (strLoop k va max dst).Within max := by
  induction k generalizing va max dst with
  | zero => trivial
  | succ k ih =>
    unfold strLoop
    by_cases hmax : 0 < max
    · rw [if_pos hmax]
      by_cases hva : maxuva ≤ va
      · rw [if_pos hva]
        trivial
      · rw [if_neg hva]
        apply (copyChunk_within (ih (va + min (pgsize - va % pgsize) max) _) _ va dst).mono
        omega
    · rw [if_neg hmax]
      trivial

private theorem copyinNew_within (srcva len : Nat) : (copyinNew srcva len).Within len := by
  unfold copyinNew
  split_ifs
  · trivial
  · exact (copyLoop_within _ _ _ _).mono (by omega)

private theorem copyinstrNew_within (srcva max : Nat) : (copyinstrNew srcva max).Within max := by
  unfold copyinstrNew
  split_ifs
  · trivial
  · exact strLoop_within _ _ _ _

/-- The inner loop either meets the end of the string or goes through all its bytes. -/
theorem copyChunk_follows {ends : UInt8 → Bool} {rest : List UInt8 → Copy} {n va : Nat}
    {dst out : List UInt8} {xs : List (Nat × UInt8)}
    (h : (copyChunk ends rest n va dst).Follows xs (.ret (some out))) :
    (∃ ys x, out = dst ++ ys ∧ ys.length < n ∧ (∀ y ∈ ys, ends y = false) ∧ ends x = true ∧
      xs.map Prod.snd = ys ++ [x] ∧ xs.map Prod.fst = List.range' va (ys.length + 1)) ∨
    ∃ ys zs, xs = ys ++ zs ∧ ys.map Prod.fst = List.range' va n ∧
      (∀ y ∈ ys.map Prod.snd, ends y = false) ∧
      (rest (dst ++ ys.map Prod.snd)).Follows zs (.ret (some out)) := by
  induction n generalizing va dst xs with
  | zero => exact .inr ⟨[], xs, rfl, rfl, by simp, by simpa [copyChunk] using h⟩
  | succ n ih =>
    cases h with
    | @cons _ _ x xs _ h =>
      dsimp only at h
      by_cases hx : ends x = true
      · rw [if_pos hx] at h
        cases h
        left
        exact ⟨[], x, by simp, Nat.succ_pos n, by simp, hx, by simp, by simp⟩
      · rw [if_neg hx] at h
        have hx' : ends x = false := by simpa using hx
        rcases ih h with ⟨ys, z, rfl, hlen, hys, hz, hsnd, hfst⟩ | ⟨ys, zs, rfl, hfst, hys, hzs⟩
        · left
          refine ⟨x :: ys, z, by simp, Nat.succ_lt_succ hlen, ?_, hz, ?_, ?_⟩
          · exact List.forall_mem_cons.mpr ⟨hx', hys⟩
          · rw [List.map_cons, hsnd, List.cons_append]
          · rw [List.map_cons, hfst, List.length_cons, List.range'_succ (n := ys.length + 1)]
        · right
          refine ⟨(va, x) :: ys, zs, rfl, ?_, ?_, ?_⟩
          · rw [List.map_cons, hfst, List.range'_succ]
          · exact List.forall_mem_cons.mpr ⟨hx', hys⟩
          · simpa using hzs

private theorem copyLoop_follows {k va stop : Nat} {dst out : List UInt8} {xs : List (Nat × UInt8)}
    (hk : stop - va ≤ k) (h : (copyLoop k va stop dst).Follows xs (.ret (some out))) :
    xs.map Prod.fst = List.range' va (stop - va) ∧ out = dst ++ xs.map Prod.snd := by
  induction k generalizing va dst xs with
  | zero =>
    cases h
    rw [Nat.le_zero.mp hk]
    simp
  | succ k ih =>
    unfold copyLoop at h
    by_cases hlt : va < stop
    · rw [if_pos hlt] at h
      set n := min (pgsize - va % pgsize) (stop - va) with hn
      have hmod := Nat.mod_lt va (show 0 < pgsize by decide)
      obtain ⟨ys, zs, rfl, hys, -, hzs⟩ := (copyChunk_follows h).resolve_left (by simp)
      obtain ⟨hfst, hsnd⟩ := ih (by omega) hzs
      refine ⟨?_, ?_⟩
      · rw [List.map_append, hys, hfst, List.range'_append_1]
        congr 1
        omega
      · rw [hsnd, List.map_append, List.append_assoc]
    · rw [if_neg hlt] at h
      cases h
      rw [Nat.sub_eq_zero_of_le (Nat.le_of_not_lt hlt)]
      simp

/-- Where the byte at a position of a range comes from. -/
theorem address_of_range {xs : List (Nat × UInt8)} {va m i : Nat} {x : UInt8}
    (h : xs.map Prod.fst = List.range' va m) (hx : (xs.map Prod.snd)[i]? = some x) :
    (va + i, x) ∈ xs ∧ i < m := by
  rw [List.getElem?_map] at hx
  obtain ⟨⟨a, y⟩, hy, rfl⟩ := Option.map_eq_some_iff.mp hx
  have hi : i < m := by
    have hlen : xs.length = m := by simpa using congrArg List.length h
    rw [← hlen]
    exact (List.getElem?_eq_some_iff.mp hy).1
  have ha : (xs.map Prod.fst)[i]? = some a := by rw [List.getElem?_map, hy, Option.map_some]
  rw [h, List.getElem?_range' hi, Option.some.injEq, Nat.one_mul] at ha
  rw [ha]
  exact ⟨List.mem_of_getElem? hy, hi⟩

/-- A copy that succeeds was given the bytes of the range in turn. -/
theorem copyinNew_follows {srcva len : Nat} {dst : List UInt8} {xs : List (Nat × UInt8)}
    (h : (copyinNew srcva len).Follows xs (.ret (some dst))) :
    xs.map Prod.fst = List.range' srcva len ∧ xs.map Prod.snd = dst ∧ srcva + len ≤ maxuva := by
  unfold copyinNew at h
  split_ifs at h with hrange
  · cases h
  · obtain ⟨hfst, hsnd⟩ := copyLoop_follows (by omega) h
    refine ⟨?_, ?_, ?_⟩
    · rw [hfst, Nat.add_sub_cancel_left]
    · rw [hsnd, List.nil_append]
    · omega

private theorem strLoop_follows {k va max : Nat} {dst out : List UInt8} {xs : List (Nat × UInt8)}
    (h : (strLoop k va max dst).Follows xs (.ret (some out))) :
    ∃ ys, out = dst ++ ys ∧ ys.length < max ∧ va + ys.length < maxuva ∧ 0 ∉ ys ∧
      xs.map Prod.snd = ys ++ [0] ∧ xs.map Prod.fst = List.range' va (ys.length + 1) := by
  induction k generalizing va max dst xs with
  | zero => cases h
  | succ k ih =>
    unfold strLoop at h
    split_ifs at h with hmax hva
    · cases h
    · set n := min (pgsize - va % pgsize) max with hn
      have hfit : va + n ≤ maxuva := by
        have hdvd : maxuva = pgsize * (maxuva / pgsize) := by decide
        unfold pgsize maxuva at *
        omega
      have hzero : ∀ {ys : List UInt8}, (∀ y ∈ ys, (y == 0) = false) → 0 ∉ ys := by
        intro ys hys h0
        cases hys 0 h0
      rcases copyChunk_follows h with ⟨ys, x, rfl, hlen, hys, hx, hsnd, hfst⟩ |
        ⟨ys, zs, rfl, hfst, hys, hzs⟩
      · rw [eq_of_beq hx] at hsnd
        exact ⟨ys, rfl, by omega, by omega, hzero hys, hsnd, hfst⟩
      · obtain ⟨ys', rfl, hlen', hva', hys', hsnd', hfst'⟩ := ih hzs
        have hlen : ys.length = n := by simpa using congrArg List.length hfst
        refine ⟨ys.map Prod.snd ++ ys', ?_, ?_, ?_, ?_, ?_, ?_⟩
        · rw [List.append_assoc]
        · rw [List.length_append, List.length_map]
          omega
        · rw [List.length_append, List.length_map]
          omega
        · rw [List.mem_append, not_or]
          exact ⟨hzero hys, hys'⟩
        · rw [List.map_append, hsnd', List.append_assoc]
        · rw [List.map_append, hfst, hfst', List.range'_append_1, List.length_append,
            List.length_map,
            hlen, Nat.add_assoc]
    · cases h

/-- A copy of a string that succeeds was given its bytes and a null byte. -/
theorem copyinstrNew_follows {srcva max : Nat} {dst : List UInt8} {xs : List (Nat × UInt8)}
    (h : (copyinstrNew srcva max).Follows xs (.ret (some dst))) :
    dst.length < max ∧ srcva + dst.length < maxuva ∧ 0 ∉ dst ∧ xs.map Prod.snd = dst ++ [0] ∧
      xs.map Prod.fst = List.range' srcva (dst.length + 1) := by
  unfold copyinstrNew at h
  split_ifs at h
  · cases h
  · obtain ⟨ys, rfl, hys⟩ := strLoop_follows h
    exact hys

/-! ### Turns -/

variable {P O F : Type} {w w' : World P O F}

/-- What the kernel loads from an address, with the table of the process: nothing if it faults.
Without `SSTATUS_SUM` it does not load from pages of the user. -/
def World.kernelLoad (w : World P O F) (p : P) (va : Nat) : Option UInt8 :=
  (w.leaf (.kern p) (va / pgsize)).bind fun e ↦
    if e.perm.passes .read && !e.perm.u then some (w.mem e.pa (va % pgsize)) else none

/-- A turn of the copying process, or a call of another one. -/
inductive CopyEvent (P O F : Type) where
  | turn (answers : List (Option (Nat × O))) (io : List Bool)
  | other (e : Event P O F)

/-- The process itself goes on. -/
def CopyEvent.own : CopyEvent P O F → Bool
  | .turn _ _ => true
  | .other _ => false

section

variable [DecidableEq P] [DecidableEq O] [DecidableEq F]

/-- A load, or a fault with `kerneltrap`, or a call of another process. -/
inductive CopyStep (b : Boot P) (p : P) :
    World P O F × Copy → CopyEvent P O F → World P O F × Copy → Prop where
  | byte {w : World P O F} {va : Nat} {next : UInt8 → Copy} {x : UInt8}
      (answers : List (Option (Nat × O))) (io : List Bool) (h : w.kernelLoad p va = some x) :
      CopyStep b p (w, .load va next) (.turn answers io) (w, next x)
  | resolved {w w' : World P O F} {va : Nat} {next : UInt8 → Copy}
      (answers : List (Option (Nat × O))) (io : List Bool) (h : w.kernelLoad p va = none)
      (hrun : vmResolveFault p va .read { w with answers := answers, io := io, slept := false } =
        .ok (.resolved, w')) :
      CopyStep b p (w, .load va next) (.turn answers io) (w', .load va next)
  | refused {w w' : World P O F} {va : Nat} {next : UInt8 → Copy} {r : FaultResult}
      (answers : List (Option (Nat × O))) (io : List Bool) (h : w.kernelLoad p va = none)
      (hr : r ≠ .resolved)
      (hrun : vmResolveFault p va .read { w with answers := answers, io := io, slept := false } =
        .ok (r, w')) :
      CopyStep b p (w, .load va next) (.turn answers io) (w', .ret none)
  | other {w w' : World P O F} (c : Copy) (e : Event P O F) (h : Step b w e w')
      (hp : p ∉ e.call.actors b) : CopyStep b p (w, c) (.other e) (w', c)

variable {b : Boot P} {p : P} {c c' : Copy}

/-- The state after a turn or a call. -/
def copyNext (b : Boot P) (p : P) (s : World P O F × Copy) :
    CopyEvent P O F → Option (World P O F × Copy)
  | .turn answers io =>
    match s.2 with
    | .ret _ => none
    | .load va next =>
      match s.1.kernelLoad p va with
      | some x => some (s.1, next x)
      | none =>
        match vmResolveFault p va .read
            { s.1 with answers := answers, io := io, slept := false } with
        | .ok (r, w') => some (w', if r = .resolved then .load va next else .ret none)
        | .error _ => none
  | .other e => if p ∈ e.call.actors b then none else (s.1.next b e).map fun w' ↦ (w', s.2)

private theorem copyStep_of_next (s : World P O F × Copy) (e : CopyEvent P O F)
    (t : World P O F × Copy)
    (h : copyNext b p s e = some t) : CopyStep b p s e t := by
  obtain ⟨w, c⟩ := s
  cases e with
  | turn answers io =>
    cases c with
    | ret dst => cases h
    | load va next =>
      unfold copyNext at h
      dsimp only at h
      cases hx : w.kernelLoad p va with
      | some x =>
        rw [hx] at h
        cases h
        exact .byte answers io hx
      | none =>
        rw [hx] at h
        dsimp only at h
        split at h
        · rename_i r w' hrun
          cases h
          split_ifs with hr
          · subst hr
            exact .resolved answers io hx hrun
          · exact .refused answers io hx hr hrun
        · cases h
  | other e =>
    unfold copyNext at h
    dsimp only at h
    split_ifs at h with hp
    obtain ⟨w', hw', rfl⟩ := Option.map_eq_some_iff.mp h
    exact .other c e (World.step_of_next hw') hp

/-! ### What a load sees -/

omit [DecidableEq P] [DecidableEq O] [DecidableEq F] in
/-- The kernel loads what the process would load itself. -/
theorem SpaceAt.kernelLoad (h : SpaceAt w p) {va : Nat} (hva : va < maxuva) {x : UInt8}
    (hx : w.kernelLoad p va = some x) : load w (.user p) va = some x := by
  unfold World.kernelLoad at hx
  obtain ⟨e, he, hload⟩ := Option.bind_eq_some_iff.mp hx
  split_ifs at hload with hpass
  have hpage : UserPage (va / pgsize) := (Nat.div_mul_le_self va pgsize).trans_lt hva
  obtain ⟨e', he', rfl⟩ := h.mirror _ _ hpage he
  have hr : e'.perm.r = true := (Bool.and_eq_true_iff.mp hpass).1
  rw [load_eq, World.reading, he', Option.map_some, Option.bind_some, if_pos hr]
  exact hload

omit [DecidableEq O] [DecidableEq F] in
/-- The kernel can load once the fault is resolved. -/
theorem FaultDone.kernelLoad {va : Nat} (h : FaultDone p (va / pgsize) .read w w' .resolved) :
    (w'.kernelLoad p va).isSome = true := by
  obtain ⟨e, -, hk, ha⟩ := h.entry
  have hr : e.mirror.perm.passes .read = true := by
    have hbits : e.perm.u = true ∧ e.perm.r = true := by simpa [Perm.allows] using ha
    rw [Pte.mirror_passes]
    exact hbits.2
  unfold World.kernelLoad
  rw [hk, Option.bind_some, hr]
  rfl

omit [DecidableEq P] [DecidableEq O] [DecidableEq F] in
/-- Whether the kernel can load depends on the entries alone. -/
theorem kernelLoad_isSome {va : Nat}
    (h : w'.leaf (.kern p) (va / pgsize) = w.leaf (.kern p) (va / pgsize)) :
    (w'.kernelLoad p va).isSome = (w.kernelLoad p va).isSome := by
  unfold World.kernelLoad
  rw [h]
  cases w.leaf (.kern p) (va / pgsize) with
  | none => rfl
  | some e =>
    dsimp only [Option.bind_some]
    split_ifs
    · rfl
    · rfl

/-! ### Runs -/

/-- The process runs, after calls from the boot on. -/
def Running (b : Boot P) (data : Nat → List UInt8) (p : P) (w : World P O F) : Prop :=
  (∃ es, Runs (Step b) (World.boot data) es w) ∧ (w.proc p).state = .live

variable [Fintype P] (hP : Fintype.card P ≤ nproc) [Fintype O] {data : Nat → List UInt8}

omit [Fintype P] [Fintype O] in
/-- A fault in a copy is one of the process. -/
theorem Running.fault (h : Running b data p w) {va : Nat} {r : FaultResult}
    {answers : List (Option (Nat × O))} {io : List Bool}
    (hrun : vmResolveFault p va .read { w with answers := answers, io := io, slept := false } =
      .ok (r, w')) : Running b data p w' := by
  obtain ⟨⟨es, hruns⟩, hlive⟩ := h
  have hstep : Step b w ⟨.fault p va .read, answers, io⟩ w' := by
    refine ⟨hlive, ?_⟩
    change (vmResolveFault p va .read >>= fun _ ↦ pure ()) _ = _
    exact congrArg (fun x ↦ x >>= fun y ↦ Except.ok ((), y.2)) hrun
  have hdone := ((vmResolveFault_spec _ p va .read).of_ok _ _ hrun).1
  refine ⟨⟨es ++ [⟨.fault p va .read, answers, io⟩], hruns.append (.single hstep)⟩, ?_⟩
  rw [hdone.core.proc]
  exact hlive

include hP

/-- Other processes leave it running, and its entries. -/
theorem Running.other (h : Running b data p w) {e : Event P O F} (hstep : Step b w e w')
    (hp : p ∉ e.call.actors b) : Running b data p w' ∧ Same p w w' := by
  obtain ⟨⟨es, hruns⟩, hlive⟩ := h
  obtain ⟨haccounts, hspaces, hbooks⟩ := accounts_of_runs hP hruns
  have hquiet : Quiet w { w with answers := e.answers, io := e.io, slept := false } :=
    .of_eq rfl rfl rfl rfl rfl
  have hsame := (runCall_same hP (haccounts.quiet hquiet rfl rfl) (hspaces.quiet hquiet)
    (hbooks.quiet hquiet) hstep.1).of_ok () w' hstep.2 p hp
  have hsame' : Same p w w' := (hquiet.same p).trans hsame
  refine ⟨⟨⟨es ++ [e], hruns.append (.single hstep)⟩, ?_⟩, hsame'⟩
  rw [hsame'.state]
  exact hlive

/-- A process running in a copy goes on running. -/
theorem Running.step (h : Running b data p w) {e : CopyEvent P O F}
    (hstep : CopyStep b p (w, c) e (w', c')) : Running b data p w' := by
  cases hstep with
  | byte answers io hx => exact h
  | resolved answers io hx hrun => exact h.fault hrun
  | refused answers io hx hr hrun => exact h.fault hrun
  | other c e hstep hp => exact (h.other hP hstep hp).1

omit [Fintype P] [Fintype O] hP in
private theorem Running.kernelLoad (h : Running b data p w) {va : Nat} (hva : va < maxuva)
    {x : UInt8}
    (hx : w.kernelLoad p va = some x) : load w (.user p) va = some x := by
  obtain ⟨⟨es, hruns⟩, hlive⟩ := h
  exact (spaces_of_runs hruns p hlive).space.kernelLoad hva hx

/-- At a moment of the run the process loads the byte from the address. -/
def Seen (b : Boot P) (p : P) (s : World P O F × Copy) (es : List (CopyEvent P O F))
    (t : World P O F × Copy) (va : Nat) (x : UInt8) : Prop :=
  ∃ es1 es2 u, es = es1 ++ es2 ∧ Runs (CopyStep b p) s es1 u ∧ Runs (CopyStep b p) u es2 t ∧
    load u.1 (.user p) va = some x

omit [Fintype P] [Fintype O] hP in
/-- What was seen earlier in the copy. -/
theorem Seen.cons {s t u : World P O F × Copy} {e : CopyEvent P O F} {es : List (CopyEvent P O F)}
    {va : Nat} {x : UInt8} (hstep : CopyStep b p s e t) (h : Seen b p t es u va x) :
    Seen b p s (e :: es) u va x := by
  obtain ⟨es1, es2, v, rfl, h1, h2, hload⟩ := h
  exact ⟨e :: es1, es2, v, rfl, .cons hstep h1, h2, hload⟩

/-- A copy that did not fail was given bytes that the process could load. -/
theorem Running.follows {es : List (CopyEvent P O F)}
    (h : Runs (CopyStep b p) (w, c) es (w', c')) (hw : Running b data p w) :
    c' = .ret none ∨ ∃ xs, c.Follows xs c' ∧
      ∀ y ∈ xs, y.1 < maxuva → Seen b p (w, c) es (w', c') y.1 y.2 := by
  generalize hs : (w, c) = s at h
  generalize ht : (w', c') = t at h
  induction h generalizing w c with
  | nil s =>
    obtain ⟨rfl, rfl⟩ := Prod.mk.inj (hs.trans ht.symm)
    exact .inr ⟨[], .nil c, by simp⟩
  | @cons s u t e es head tail ih =>
    subst hs ht
    obtain ⟨w1, c1⟩ := u
    have htail := ih (hw.step hP head) rfl rfl
    cases head with
    | @byte _ va next x answers io hx =>
      refine htail.imp_right ?_
      rintro ⟨xs, hxs, hseen⟩
      refine ⟨(va, x) :: xs, .cons hxs, ?_⟩
      rw [List.forall_mem_cons]
      refine ⟨fun hva ↦ ?_, fun y hy hlt ↦ (hseen y hy hlt).cons (.byte answers io hx)⟩
      exact ⟨[], _, _, rfl, .nil _, .cons (.byte answers io hx) tail, hw.kernelLoad hva hx⟩
    | resolved answers io hx hrun =>
      refine htail.imp_right ?_
      rintro ⟨xs, hxs, hseen⟩
      exact ⟨xs, hxs, fun y hy hlt ↦ (hseen y hy hlt).cons (.resolved answers io hx hrun)⟩
    | refused answers io hx hr hrun =>
      rcases htail with hc | ⟨xs, hxs, -⟩
      · exact .inl hc
      · cases hxs
        exact .inl rfl
    | other c e hstep hp =>
      refine htail.imp_right ?_
      rintro ⟨xs, hxs, hseen⟩
      exact ⟨xs, hxs, fun y hy hlt ↦ (hseen y hy hlt).cons (.other _ e hstep hp)⟩

/-- A copy from user memory that succeeds, with other processes running in between, yields as many
bytes as it was asked for, and every byte is what the process itself could load from its address at
a moment of the copy. -/
theorem copyin_bytes {es0 : List (Event P O F)} (h0 : Runs (Step b) (World.boot data) es0 w)
    (hp : (w.proc p).state = .live) {srcva len : Nat} {es : List (CopyEvent P O F)}
      {dst : List UInt8}
    (h : Runs (CopyStep b p) (w, copyinNew srcva len) es (w', .ret (some dst))) :
    dst.length = len ∧ ∀ i x, dst[i]? = some x →
      Seen b p (w, copyinNew srcva len) es (w', .ret (some dst)) (srcva + i) x := by
  have hw : Running b data p w := ⟨⟨es0, h0⟩, hp⟩
  obtain ⟨xs, hxs, hseen⟩ := (hw.follows hP h).resolve_left (by rintro ⟨⟩)
  obtain ⟨hfst, rfl, hmax⟩ := copyinNew_follows hxs
  have hlen : xs.length = len := by simpa using congrArg List.length hfst
  refine ⟨by rw [List.length_map, hlen], ?_⟩
  intro i x hx
  obtain ⟨hmem, hi⟩ := address_of_range hfst hx
  exact hseen _ hmem ((Nat.add_lt_add_left hi srcva).trans_le hmax)

/-- A string that is copied from user memory, with other processes running in between, is shorter
than `max` and has no null byte, and its bytes and then a null byte are what the process itself
could load from the addresses in turn, each at a moment of the copy. -/
theorem copyinstr_string {es0 : List (Event P O F)} (h0 : Runs (Step b) (World.boot data) es0 w)
    (hp : (w.proc p).state = .live) {srcva max : Nat} {es : List (CopyEvent P O F)}
      {dst : List UInt8}
    (h : Runs (CopyStep b p) (w, copyinstrNew srcva max) es (w', .ret (some dst))) :
    dst.length < max ∧ 0 ∉ dst ∧ ∀ i x, (dst ++ [0])[i]? = some x →
      Seen b p (w, copyinstrNew srcva max) es (w', .ret (some dst)) (srcva + i) x := by
  have hw : Running b data p w := ⟨⟨es0, h0⟩, hp⟩
  obtain ⟨xs, hxs, hseen⟩ := (hw.follows hP h).resolve_left (by rintro ⟨⟩)
  obtain ⟨hlen, hmax, hzero, hsnd, hfst⟩ := copyinstrNew_follows hxs
  refine ⟨hlen, hzero, ?_⟩
  intro i x hx
  rw [← hsnd] at hx
  obtain ⟨hmem, hi⟩ := address_of_range hfst hx
  exact hseen _ hmem ((Nat.add_le_add_left (Nat.le_of_lt_succ hi) srcva).trans_lt hmax)

/-! ### Turns and faults -/

/-- A copy takes at most two turns for a load, and one where the kernel can load at once. -/
theorem Running.turns {es : List (CopyEvent P O F)}
    (h : Runs (CopyStep b p) (w, c) es (w', c')) (hw : Running b data p w) {k : Nat}
    (hk : c.Within k) : es.countP CopyEvent.own ≤ 2 * k ∧
      ∀ va next, c = .load va next → (w.kernelLoad p va).isSome = true →
        es.countP CopyEvent.own + 1 ≤ 2 * k := by
  generalize hs : (w, c) = s at h
  generalize ht : (w', c') = t at h
  induction h generalizing w c k with
  | nil s =>
    obtain ⟨rfl, rfl⟩ := Prod.mk.inj (hs.trans ht.symm)
    refine ⟨Nat.zero_le _, ?_⟩
    rintro va next rfl -
    cases k with
    | zero => exact hk.elim
    | succ k => rw [List.countP_nil]; omega
  | @cons s u t e es head tail ih =>
    subst hs ht
    obtain ⟨w1, c1⟩ := u
    have htail := @ih w1 c1 (hw.step hP head)
    cases head with
    | @byte _ va next x answers io hx =>
      cases k with
      | zero => exact hk.elim
      | succ k =>
        obtain ⟨hle, -⟩ := htail (hk x) rfl rfl
        rw [List.countP_cons_of_pos rfl]
        exact ⟨by omega, fun _ _ _ _ ↦ by omega⟩
    | @resolved _ _ va next answers io hx hrun =>
      have hdone := ((vmResolveFault_spec _ p va .read).of_ok _ _ hrun).1
      have hle := (htail hk rfl rfl).2 va next rfl hdone.kernelLoad
      rw [List.countP_cons_of_pos rfl]
      refine ⟨hle, ?_⟩
      rintro va' next' heq hsome
      obtain ⟨rfl, -⟩ := Copy.load.inj heq
      rw [hx] at hsome
      cases hsome
    | @refused _ _ va next r answers io hx hr hrun =>
      cases k with
      | zero => exact hk.elim
      | succ k =>
        obtain ⟨hle, -⟩ := @htail 0 trivial rfl rfl
        rw [List.countP_cons_of_pos rfl]
        refine ⟨by omega, ?_⟩
        rintro va' next' heq hsome
        obtain ⟨rfl, -⟩ := Copy.load.inj heq
        rw [hx] at hsome
        cases hsome
    | other c e hstep hp =>
      have hsame := (hw.other hP hstep hp).2
      obtain ⟨hle, hload⟩ := htail hk rfl rfl
      rw [List.countP_cons_of_neg (by simp [CopyEvent.own])]
      refine ⟨hle, ?_⟩
      rintro va next rfl hsome
      apply hload va next rfl
      rw [kernelLoad_isSome (congrFun hsame.kern _), hsome]

/-- Whatever other processes do between a fault and the load, the copies take at most two turns for
a byte. -/
theorem copy_turns {es0 : List (Event P O F)} (h0 : Runs (Step b) (World.boot data) es0 w)
    (hp : (w.proc p).state = .live) {srcva n : Nat} {es : List (CopyEvent P O F)}
    (h : Runs (CopyStep b p) (w, copyinNew srcva n) es (w', c') ∨
      Runs (CopyStep b p) (w, copyinstrNew srcva n) es (w', c')) :
    es.countP CopyEvent.own ≤ 2 * n := by
  have hw : Running b data p w := ⟨⟨es0, h0⟩, hp⟩
  rcases h with h | h
  · exact (hw.turns hP h (copyinNew_within srcva n)).1
  · exact (hw.turns hP h (copyinstrNew_within srcva n)).1

end

/-! ### A copy of two processes -/

/-- The first process, with a page of heap that it has not touched, after its fork. -/
def smallParent : Option (World Bool (Fin 64) Nat) :=
  (World.boot fun _ ↦ []).after Boot.small
    [⟨.userinit UInt8.ofNat, smallPages (List.range' 10 20), []⟩, ⟨.sbrk false 4096, [], []⟩,
      ⟨.fork false true, smallPages (List.range' 30 20), []⟩]

/-- A turn of the first process. -/
def smallTurn : CopyEvent Bool (Fin 64) Nat := .turn (smallPages (List.range' 50 10)) []

/-- The child gets a page of its own and writes to it. -/
def smallStore : List (CopyEvent Bool (Fin 64) Nat) :=
  [.other ⟨.fault true 4094 .write, smallPages (List.range' 60 3), []⟩,
    .other ⟨.store true 4094 7, [], []⟩]

/-- A copy of the first process computes to the bytes. -/
def smallCopied (c : Copy) (es : List (CopyEvent Bool (Fin 64) Nat)) (dst : List UInt8) : Bool :=
  smallParent.any fun w ↦ (w.proc false).state = .live ∧
    (after (copyNext Boot.small false) (w, c) es).any fun s ↦
      match s.2 with
      | .ret out => out = some dst
      | .load _ _ => false

private theorem exists_smallCopied {c : Copy} {es : List (CopyEvent Bool (Fin 64) Nat)}
    {dst : List UInt8}
    (h : smallCopied c es dst = true) :
    ∃ w w', (∃ es0, Runs (Step .small) (World.boot fun _ ↦ []) es0 w) ∧
      (w.proc false).state = .live ∧
        Runs (CopyStep .small false) (w, c) es (w', .ret (some dst)) := by
  obtain ⟨w, hw, hgood⟩ := World.runs_of_after h
  obtain ⟨hlive, hafter⟩ := of_decide_eq_true hgood
  obtain ⟨⟨w', c'⟩, hrun, hc⟩ := exists_runs copyStep_of_next (w, c) es _ hafter
  refine ⟨w, w', ⟨_, hw⟩, hlive, ?_⟩
  dsimp only at hc
  split at hc
  · rw [of_decide_eq_true hc] at hrun
    exact hrun
  · cases hc

private theorem smallCopied_across : smallCopied (copyinNew 4094 4)
    (smallTurn :: (smallStore ++ List.replicate 4 smallTurn)) [254, 255, 0, 0] = true := by
  decide +kernel

/-- The child writes in between, into its own page. -/
theorem copyin_bytes_small : ∃ (w w' : World Bool (Fin 64) Nat) (es : _),
    Seen .small false (w, copyinNew 4094 4) es (w', .ret (some [254, 255, 0, 0])) 4095 255 := by
  obtain ⟨w, w', ⟨es0, h0⟩, hlive, hrun⟩ := exists_smallCopied smallCopied_across
  exact ⟨w, w', _, (copyin_bytes (by decide) h0 hlive hrun).2 1 255 rfl⟩

/-- The null byte is on the page that the copy brings in. -/
theorem copyinstr_string_small : ∃ (w w' : World Bool (Fin 64) Nat) (es : _),
    Seen .small false (w, copyinstrNew 4094 9) es (w', .ret (some [254, 255])) 4096 0 := by
  have hcopied : smallCopied (copyinstrNew 4094 9)
      (smallTurn :: (smallStore ++ List.replicate 3 smallTurn)) [254, 255] = true := by
    decide +kernel
  obtain ⟨w, w', ⟨es0, h0⟩, hlive, hrun⟩ := exists_smallCopied hcopied
  exact ⟨w, w', _, (copyinstr_string (by decide) h0 hlive hrun).2.2 2 0 rfl⟩

/-- Four bytes across two pages take at most eight turns. -/
theorem copy_turns_small : ∃ (w w' : World Bool (Fin 64) Nat) (es : _),
    Runs (CopyStep .small false) (w, copyinNew 4094 4) es (w', .ret (some [254, 255, 0, 0])) ∧
      es.countP CopyEvent.own ≤ 8 := by
  obtain ⟨w, w', ⟨es0, h0⟩, hlive, hrun⟩ := exists_smallCopied smallCopied_across
  exact ⟨w, w', _, hrun, copy_turns (by decide) h0 hlive (.inl hrun)⟩

end Xv6K210.Vm
