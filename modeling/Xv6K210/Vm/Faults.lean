import Xv6K210.Vm.Encoding
import Xv6K210.Vm.TallyFaults

/-!
# What a resolved fault is good for

Source `kernel/vm/vmfault.c:24–125`. `Orderly` collects what the tables and the
mappings of a process keep to. From such a state a fault is resolved only in an area that allows
the access, the user and the kernel can then make the access, and no other entry changed; a fault
that is not resolved changes no entry. Every page in use has an owner in both cases.
-/

namespace Xv6K210.Vm

open Xv6K210.Base Prog Function

variable {P O F : Type} {w w' : World P O F} {p : P} {address : Nat} {access : Access}

/-! ### Accesses -/

/-- The processor lets an access pass: `PTE_W` without `PTE_R` is reserved. -/
def Perm.passes (perm : Perm) : Access → Bool
  | .read => perm.r
  | .write => perm.r && perm.w
  | .exec => perm.x

/-- The user can make the access. -/
def World.UserMay (w : World P O F) (p : P) (address : Nat) (access : Access) : Prop :=
  ∃ e, w.leaf (.user p) (address / pgsize) = some e ∧ e.perm.u = true ∧
    e.perm.passes access = true

/-- The kernel can make the access, with the kernel table of the process. -/
def World.KernelMay (w : World P O F) (p : P) (address : Nat) (access : Access) : Prop :=
  ∃ e, w.leaf (.kern p) (address / pgsize) = some e ∧ e.perm.u = false ∧
    e.perm.passes access = true

/-- An entry that can be written, now or when its page is copied, can be read. -/
def Pte.Lawful (e : Pte) : Prop := e.perm.w = true ∨ e.perm.cow = true → e.perm.r = true

/-- The pages, the tables and the mappings of a process are in order. -/
structure Orderly [DecidableEq P] (w : World P O F) (p : P) : Prop where
  tally : Tally untold w.frames [] w
  alive : Alive w p
  lawful : ∀ n e, w.leaf (.user p) n = some e → e.Lawful
  sound : ∀ i v, (w.proc p).vmas i = some v → v.Sound

/-- What an entry allows it passes. -/
theorem Pte.Lawful.passes {e : Pte} (h : e.Lawful) (ha : e.perm.allows access = true) :
    e.perm.u = true ∧ e.perm.passes access = true := by
  cases access with
  | read => simpa [Perm.allows, Perm.passes] using ha
  | exec => simpa [Perm.allows, Perm.passes] using ha
  | write =>
    have hbits : e.perm.u = true ∧ e.perm.w = true := by simpa [Perm.allows] using ha
    have hread := h (.inl hbits.2)
    simp [Perm.passes, hbits, hread]

/-- The copy of an entry that allows the user an access allows it to the kernel. -/
theorem Pte.mirror_passes {e : Pte} : e.mirror.perm.passes access = e.perm.passes access := by
  cases access <;> rfl

/-- What a fault stores is lawful. -/
theorem NewEntry.lawful {q : Proc P O F} {u : Nat → Option Pte} {n : Nat} {e : Pte}
    (h : NewEntry q u n e) (hu : ∀ n e, u n = some e → e.Lawful)
    (hv : ∀ i v, q.vmas i = some v → v.Sound) : e.Lawful := by
  cases h with
  | heap pa _ => exact fun _ ↦ rfl
  | stack pa _ => exact fun _ ↦ rfl
  | mapping pa i v _ hi _ _ =>
    intro hw
    have hwrite : v.prot.testBit 1 = true := by simpa [Vma.perm] using hw
    exact hv i v hi hwrite
  | resolved pa e he hcow => exact fun _ ↦ hu n e he (.inr hcow)

variable [DecidableEq P]

/-! ### What a fault did -/

/-- A fault keeps the records. -/
theorem FaultDone.core {n : Nat} {r : FaultResult} (h : FaultDone p n access w w' r) :
    Core w w' := by
  cases h with
  | failed _ _ h => exact h.core
  | sync _ _ _ h => exact h.core
  | store _ _ _ h => exact h.core

/-- Only the entries of the page change. -/
theorem FaultDone.frame {n : Nat} {r : FaultResult} (h : FaultDone p n access w w' r) {t : Tbl P}
    {m : Nat} (hout : t = .user p ∨ t = .kern p → m ≠ n) : w'.leaf t m = w.leaf t m := by
  cases h with
  | failed _ _ h => rw [h.leaf]
  | sync e he _ h =>
    rw [h.leaf]
    by_cases ht : t = .kern p
    · subst ht
      have hm : m ∉ [n] := by
        rw [List.mem_singleton]
        exact hout (.inr rfl)
      simp only [Leaves.copy_same, hm, if_false]
    · rw [Leaves.copy_ne _ ht]
  | store e _ _ h =>
    rw [h.leaf]
    by_cases hu : t = .user p
    · subst hu
      rw [Leaves.both_user, update_of_ne (hout (.inl rfl))]
    · by_cases hk : t = .kern p
      · subst hk
        rw [Leaves.both_kern, update_of_ne (hout (.inr rfl))]
      · rw [Leaves.both_ne _ _ _ _ hu hk]

/-- A resolved fault leaves an entry that allows the access, and its copy. -/
theorem FaultDone.entry {n : Nat} (h : FaultDone p n access w w' .resolved) :
    ∃ e, w'.leaf (.user p) n = some e ∧ w'.leaf (.kern p) n = some e.mirror ∧
      e.perm.allows access = true := by
  cases h with
  | failed _ hr _ => exact absurd rfl hr
  | sync e he ha h =>
    refine ⟨e, ?_, ?_, ha⟩
    · rw [h.leaf, Leaves.copy_ne _ (by simp), he]
    · simp [h.leaf, Leaves.copy_same, he]
  | store e _ ha h =>
    refine ⟨e, ?_, ?_, ha⟩
    · rw [h.leaf, Leaves.both_user, update_self]
    · rw [h.leaf, Leaves.both_kern, update_self]

/-- A fault keeps the user entries lawful. -/
theorem FaultDone.lawful {n : Nat} {r : FaultResult} (h : FaultDone p n access w w' r)
    (hu : ∀ n e, w.leaf (.user p) n = some e → e.Lawful)
    (hv : ∀ i v, (w.proc p).vmas i = some v → v.Sound) (m : Nat) (e : Pte)
    (he : w'.leaf (.user p) m = some e) : e.Lawful := by
  by_cases hm : m = n
  · subst hm
    cases h with
    | failed _ _ h =>
      rw [h.leaf] at he
      exact hu m e he
    | sync e' _ _ h =>
      rw [h.leaf, Leaves.copy_ne _ (by simp)] at he
      exact hu m e he
    | store e' hnew _ h =>
      rw [h.leaf, Leaves.both_user, update_self] at he
      cases he
      exact hnew.lawful hu hv
  · rw [h.frame fun _ ↦ hm] at he
    exact hu m e he

omit [DecidableEq P] in
/-- Every page in use has an owner. -/
theorem Tally.owned {ct : Owner P O → Option (Nat → UInt8)} {fr : P → Option Nat}
    (h : Tally ct fr [] w) {pa : Nat} (hpa : w.quota pa ≠ 0) :
    ∃ x, w.owns fr x = some pa := by
  by_contra hnone
  have hcount := h.count pa
  rw [holders_eq_zero.mpr (not_exists.mp hnone), List.count_nil] at hcount
  exact hpa (by simpa using hcount)

/-! ### The fault -/

variable [DecidableEq O] [Fintype P]

/-- A fault that is resolved allows the access to the user and to the kernel, in an area that allows
it, and changes no entry of another page or process; any other fault changes no entry. No page is
lost, and the process is in order again. -/
theorem vmResolveFault_sound (h : Orderly w p) (address : Nat) (access : Access)
    (hP : Fintype.card P ≤ nproc) :
    Ensures (vmResolveFault p address access) w fun r w' ↦
      (r = .resolved → InArea (w.proc p) address access ∧ w'.UserMay p address access ∧
        w'.KernelMay p address access ∧
        ∀ t n, (t = .user p ∨ t = .kern p → n ≠ address / pgsize) → w'.leaf t n = w.leaf t n) ∧
      (r ≠ .resolved → w'.leaf = w.leaf) ∧
      (∀ pa, w'.quota pa ≠ 0 → ∃ x, w'.owns w'.frames x = some pa) ∧ Orderly w' p := by
  have hroom : ∀ c, ([] : List Nat).count c < nproc := by simp [nproc]
  have hkeep := (vmResolveFault_own address access h.alive.space).and
    (vmResolveFault_tally hP h.tally hroom h.alive address access)
  apply ((vmResolveFault_spec w p address access).and hkeep).mono
  rintro r w' ⟨⟨hdone, harea⟩, ⟨_, hspace⟩, htally⟩
  have hcore := hdone.core
  have hframes : w'.frames = w.frames := by
    ext q
    rw [World.frames, World.frames, hcore.proc]
  rw [← hframes] at htally
  have hlawful := hdone.lawful h.lawful h.sound
  refine ⟨fun hr ↦ ?_, fun hr ↦ ?_, fun pa ↦ htally.owned, htally, ?_, hlawful, ?_⟩
  · subst hr
    obtain ⟨e, hu, hk, ha⟩ := hdone.entry
    have hpass := (hlawful _ e hu).passes ha
    refine ⟨harea rfl, ⟨e, hu, hpass⟩, ⟨e.mirror, hk, rfl, ?_⟩, fun t n ↦ hdone.frame⟩
    rw [Pte.mirror_passes, hpass.2]
  · cases hdone with
    | failed _ _ h => exact h.leaf
    | sync => exact absurd rfl hr
    | store => exact absurd rfl hr
  · refine ⟨?_, ?_, hspace⟩
    · rw [hcore.there, h.alive.user]
    · rw [hcore.there, h.alive.kern]
  · rw [hcore.proc]
    exact h.sound

/-- A process with one page of heap, before it has tables. -/
def bareProcess : World (Fin 1) Unit Unit :=
  { World.boot fun _ ↦ [] with
    answers := [1, 2, 3, 4, 5, 6, 7].map fun pa ↦ some (pa, ())
    proc := fun _ ↦ { Proc.none with state := .live, sz := pgsize } }

/-- Both tables of the process. -/
def bothTables : Kern (Fin 1) Unit Unit Bool := do
  if ← uvmcreate (.user ⟨0, Nat.one_pos⟩) then uvmcreate (.kern ⟨0, Nat.one_pos⟩) else pure false

private theorem bareProcess_tally : Tally untold bareProcess.frames [] bareProcess := by
  apply Tally.of_blank
  · exact fun _ ↦ rfl
  · exact fun _ ↦ rfl
  · exact fun _ ↦ rfl
  · exact fun _ ↦ rfl
  · exact fun _ ↦ ⟨rfl, rfl⟩

private theorem bothTables_orderly :
    Ensures bothTables bareProcess fun ok w ↦ ok = true → Orderly w 0 := by
  unfold bothTables
  apply ((uvmcreate_spec bareProcess (.user 0)).and
    (uvmcreate_tally bareProcess_tally rfl)).bind
  rintro ok w1 ⟨⟨h1, hblank1⟩, htally1, -⟩
  rw [ensures_ite, ensures_pure]
  refine ⟨fun hok ↦ ?_, fun _ ↦ nofun⟩
  obtain ⟨hthere1, hleaf1⟩ := hblank1 hok
  have hroot : w1.owns bareProcess.frames (.root (.kern 0)) = none := by
    have hnone : w1.there (.kern 0) = false := by
      rw [h1.there _ (by decide)]
      rfl
    simpa [World.there, World.owns] using hnone
  apply ((uvmcreate_spec w1 (.kern 0)).and (uvmcreate_tally htally1 hroot)).mono
  rintro ok w2 ⟨⟨h2, hblank2⟩, htally2, -⟩ rfl
  obtain ⟨hthere2, hleaf2⟩ := hblank2 rfl
  have hproc : w2.proc = bareProcess.proc := h2.proc.trans h1.proc
  have huser : ∀ n, w2.leaf (.user 0) n = none := by
    intro n
    rw [h2.leaf _ (by decide), hleaf1]
  constructor
  · rwa [show w2.frames = bareProcess.frames by unfold World.frames; rw [hproc]]
  · refine ⟨?_, hthere2, ?_⟩
    · rw [h2.there _ (by decide), hthere1]
    · unfold SpaceAt
      rw [hproc]
      refine ⟨.empty _, ?_, ?_, ?_⟩
      · intro n e _ he
        rw [huser] at he
        cases he
      · intro n e _ he
        rw [hleaf2] at he
        cases he
      · intro i v hv
        cases hv
  · intro n e he
    rw [huser] at he
    cases he
  · intro i v hv
    rw [hproc] at hv
    cases hv

/-- The page of heap can be written once the process has its tables. -/
def heapResolves : Bool :=
  match bothTables bareProcess with
  | .ok (true, w) =>
    match vmResolveFault ⟨0, Nat.one_pos⟩ 5 .write w with
    | .ok (.resolved, _) => true
    | _ => false
  | _ => false

/-- The first store to the page of heap is resolved, and the user can make it then. -/
theorem vmResolveFault_sound_heap : ∃ w w' : World (Fin 1) Unit Unit, Orderly w 0 ∧
    vmResolveFault 0 5 .write w = .ok (.resolved, w') ∧ w'.UserMay 0 5 .write := by
  have hresolves : heapResolves = true := by decide +kernel
  unfold heapResolves at hresolves
  split at hresolves
  · rename_i w hboth
    split at hresolves
    · rename_i w' hrun
      have horderly := bothTables_orderly.of_ok _ _ hboth rfl
      have hsound := (vmResolveFault_sound horderly 5 .write (by decide)).of_ok _ _ hrun
      exact ⟨w, w', horderly, hrun, (hsound.1 rfl).2.1⟩
    · cases hresolves
  · cases hresolves

end Xv6K210.Vm
