import Xv6K210.Vm.Isolation

/-!
# What exec leaves after a run

Source `kernel/proc/exec.c:36–173`, `kernel/syscall/sysfile.c:258–289`. In every state
that a run can reach a successful `exec` has the arguments on the stack, and a failed one is seen
by nobody.
-/

namespace Xv6K210.Vm

open Xv6K210.Base Prog

variable {P O F : Type} {w : World P O F}

/-! ### Reading the arguments -/

/-- Every string of the arguments is below the top of the stack. -/
theorem ArgStack.string_lt {p : P} {argv : List (List UInt8)} {sp : Nat} {addrs : List Nat}
    (h : ArgStack w p argv sp addrs) {i a : Nat} {s : List UInt8} (ha : addrs[i]? = some a)
    (hs : argv[i]? = some s) : a + (s.length + 1) ≤ maxuva := by
  refine (h.inside (a, s.length + 1) (List.mem_cons_of_mem _ ?_)).2
  apply List.mem_of_getElem? (i := i)
  rw [List.getElem?_zip_eq_some]
  exact ⟨ha, by rw [List.getElem?_map, hs]; rfl⟩

/-- The array of the addresses is below the top of the stack. -/
theorem ArgStack.array_le {p : P} {argv : List (List UInt8)} {sp : Nat} {addrs : List Nat}
    (h : ArgStack w p argv sp addrs) : sp + 8 * (argv.length + 1) ≤ maxuva :=
  (h.inside _ List.mem_cons_self).2

/-- The string depends on what is loaded. -/
theorem Holds.congr {w' : World P O F} {p : P} {a : Nat} {bs : List UInt8} (h : Holds w p a bs)
    (hload : ∀ va < a + bs.length, load w' (.user p) va = load w (.user p) va) :
    Holds w' p a bs := by
  intro j x hx
  have hj : j < bs.length := (List.getElem?_eq_some_iff.mp hx).1
  rw [hload _ (by omega)]
  exact h j x hx

/-- The arguments are read as before when every load yields what it yielded. -/
theorem ArgStack.congr {w' : World P O F} {p : P} {argv : List (List UInt8)} {sp : Nat}
    {addrs : List Nat} (h : ArgStack w p argv sp addrs)
    (hload : ∀ va < maxuva, load w' (.user p) va = load w (.user p) va) :
    ArgStack w' p argv sp addrs := by
  refine ⟨h.count, h.aligned, fun i a s ha hs ↦ ?_, fun i a ha ↦ ?_, h.apart, h.inside⟩
  · have hle := h.string_lt ha hs
    refine (h.strings i a s ha hs).congr fun va hva ↦ hload va ?_
    rw [List.length_append] at hva
    exact lt_of_lt_of_le hva hle
  · have hle := h.array_le
    have hi : i < argv.length + 1 := by
      have hlt := (List.getElem?_eq_some_iff.mp ha).1
      rwa [List.length_append, h.count] at hlt
    refine (h.words i a ha).congr fun va hva ↦ hload va ?_
    rw [length_leBytes] at hva
    omega

section

variable [DecidableEq P]

omit [DecidableEq P] in
/-- Pages in hand that are freed are read by nobody. -/
theorem kfreePages_loads [Fintype P] (hP : Fintype.card P ≤ nproc) {fr : P → Option Nat}
    {ct : Owner P O → Option (Nat → UInt8)} {pas : List Nat} (h : Tally ct fr (pas ++ []) w) :
    Ensures (forEach kfreePage pas) w fun _ w' ↦ Quiet w w' ∧
      ∀ q, ∀ va < maxuva, load w' (.user q) va = load w (.user q) va := by
  apply (kfreePages_tally hP (h.told fun _ _ ↦ true)).mono
  rintro _ w' ⟨hq, h'⟩
  refine ⟨hq, fun q va hva ↦ h'.load_eq hva rfl ?_⟩
  rw [World.reading, hq.leaf]
  rfl

variable [Fintype P] (hP : Fintype.card P ≤ nproc) [DecidableEq O] [DecidableEq F]
  {b : Boot P}

include hP

/-- A successful `sys_exec` leaves the arguments on the stack. -/
theorem sysExec_args {p : P} (h : Accounts untold b w) (halive : Alive w p) (img : Image) :
    Ensures (sysExec b p img) w fun r w' ↦ ∀ argc sp, r = some (argc, sp) →
      argc = img.argv.length ∧ argRoom img.argv ≤ pgsize ∧
        ∃ addrs, ArgStack w' p img.argv sp addrs := by
  unfold sysExec
  apply ((argvPages_quiet _ _ w).and (argvPages_tally _ [] w h.tally)).bind
  rintro ⟨fetched, pas⟩ w1 ⟨hq1, h1⟩
  dsimp only at h1 ⊢
  rw [ensures_ite]
  constructor
  · rintro ⟨-, hmax⟩
    have himage : ∀ q, w1.there (.image q) = false := by
      intro q
      rw [hq1.core.there, (h.settled q).image]
    have hsz : (w1.proc p).sz ≤ maxuva := by
      rw [hq1.core.proc]
      exact (h.settled p).size
    apply (exec_tally_some hP h1 b (halive.same (hq1.same p)) himage hsz
      (fun _ hx ↦ absurd rfl hx) img).bind
    intro r w2 h2
    simp only [ensures_bind, ensures_pure]
    cases r with
    | none => exact ⟨fun _ _ _ _ _ hr ↦ by cases hr⟩
    | some x =>
      obtain ⟨htally2, -, hargs⟩ := h2 x.1 x.2 rfl
      obtain ⟨hargc, hroom, addrs, hstack⟩ := hargs hmax.le
      apply (kfreePages_loads hP htally2).mono
      rintro _ w3 ⟨-, hload⟩ argc sp ⟨⟩
      exact ⟨hargc, hroom, addrs, hstack.congr (hload p)⟩
  · intro _
    apply ensures_bind_of
    intro _ w2
    rw [ensures_pure]
    rintro _ _ ⟨⟩

variable [Fintype O]

/-- In every state after a run, a process that has executed a program finds its arguments on the
stack, each string with its zero and the array of their addresses at `sp`. -/
theorem exec_arguments {data : Nat → List UInt8} {es : List (Event P O F)}
    (h : Runs (Step b) (World.boot data) es w) {p : P} (hp : (w.proc p).state = .live)
    {img : Image} {answers : List (Option (Nat × O))} {io : List Bool} {argc sp : Nat}
    {w' : World P O F} (hexec : sysExec b p img
      { w with answers := answers, io := io, slept := false } = .ok (some (argc, sp), w')) :
    argc = img.argv.length ∧ argRoom img.argv ≤ pgsize ∧
      ∃ addrs, ArgStack w' p img.argv sp addrs := by
  obtain ⟨haccounts, hspaces, -⟩ := accounts_of_runs hP h
  have hquiet : Quiet w { w with answers := answers, io := io, slept := false } :=
    .of_eq rfl rfl rfl rfl rfl
  exact (sysExec_args hP (haccounts.quiet hquiet rfl rfl) ((hspaces p hp).same (hquiet.same p))
    img).of_ok _ _ hexec argc sp rfl

end

/-- A program without segments that is executed by the first process with one argument. -/
def smallExec (pages : List Nat) (w : World Bool (Fin 64) Nat) :
    Except String (Option (Nat × Nat) × World Bool (Fin 64) Nat) :=
  sysExec .small false ⟨true, [], [[97, 98]]⟩
    { w with answers := smallPages pages, io := [], slept := false }

/-- Whether it succeeds, if it returns. -/
def smallResult (pages : List Nat) (w : World Bool (Fin 64) Nat) : Option Bool :=
  match smallExec pages w with
  | .ok (r, _) => some r.isSome
  | .error _ => none

private theorem exists_of_smallResult {pages : List Nat} {w : World Bool (Fin 64) Nat} {x : Bool}
    (h : smallResult pages w = some x) :
      ∃ r w', smallExec pages w = .ok (r, w') ∧ r.isSome = x := by
  unfold smallResult at h
  split at h
  · rename_i r w' heq
    exact ⟨r, w', heq, Option.some.inj h⟩
  · cases h

/-- A program started with its arguments. -/
theorem exec_arguments_small : ∃ (w w' : World Bool (Fin 64) Nat) (argc sp : Nat),
    (∃ es, Runs (Step .small) (World.boot fun _ ↦ []) es w) ∧
    smallExec (List.range' 40 20) w = .ok (some (argc, sp), w') ∧
    argc = 1 ∧ ∃ addrs, ArgStack w' false [[97, 98]] sp addrs := by
  have hafter : ((World.boot fun _ ↦ []).after Boot.small
      [⟨.userinit fun _ ↦ 0, smallPages (List.range' 10 20), []⟩]).any
        fun w ↦ (w.proc false).state = .live ∧
          smallResult (List.range' 40 20) w = some true := by
    decide +kernel
  obtain ⟨w, hrun, hgood⟩ := World.runs_of_after hafter
  obtain ⟨hlive, hresult⟩ := of_decide_eq_true hgood
  obtain ⟨r, w', hexec, hr⟩ := exists_of_smallResult hresult
  obtain ⟨x, rfl⟩ := Option.isSome_iff_exists.mp hr
  obtain ⟨hargc, -, hstack⟩ := exec_arguments (by decide) hrun hlive hexec
  exact ⟨w, w', x.1, x.2, ⟨_, hrun⟩, hexec, hargc, hstack⟩

end Xv6K210.Vm
