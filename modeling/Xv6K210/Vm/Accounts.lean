import Xv6K210.Vm.TallyCalls

/-!
# The page accounts of all runs

After every run from the boot the quota of each page is the number of its owners, so a
page is free when it has none, and a page has two owners only where it is shared on purpose. What
the single calls keep of the accounts carries over to whole runs.
-/

namespace Xv6K210.Vm

open Xv6K210.Base Prog Function

variable {P O F : Type} {ct : Owner P O → Option (Nat → UInt8)} {w : World P O F}

/-! ### The size of a process -/

/-- The sizes of the processes stay. -/
def Sized (w w' : World P O F) : Prop := ∀ q, (w'.proc q).sz = (w.proc q).sz

/-- Sizes stay when nothing happens. -/
theorem Sized.refl (w : World P O F) : Sized w w := fun _ ↦ rfl

/-- Sizes that stay twice stay. -/
theorem Sized.trans {w' w'' : World P O F} (h : Sized w w') (h' : Sized w' w'') : Sized w w'' :=
  fun q ↦ (h' q).trans (h q)

/-- Equal records have equal sizes. -/
theorem Sized.of_proc {w' : World P O F} (h : w'.proc = w.proc) : Sized w w' := fun q ↦ by rw [h]

private theorem ensures_sized_bind {α β : Type} {x : Kern P O F α} {f : α → Kern P O F β}
    (hx : Ensures x w fun _ w' ↦ Sized w w')
    (hf : ∀ a w', Ensures (f a) w' fun _ w'' ↦ Sized w' w'') :
    Ensures (x >>= f) w fun _ w' ↦ Sized w w' := by
  apply hx.bind
  intro a w' h
  exact (hf a w').mono fun _ _ h' ↦ h.trans h'

section

variable [DecidableEq P]

/-- The slot search keeps the sizes. -/
theorem Slots.sized {p : P} {w' : World P O F} {vmas : Fin nvma → Option (Vma O)} {ns : List Nat}
    (h : Slots p w w' vmas ns) : Sized w w' := by
  intro q
  by_cases hq : q = p
  · rw [hq, h.proc, update_self]
  · rw [h.proc, update_of_ne hq]

private theorem setVma_sized (w : World P O F) (p : P) (i : Fin nvma) (v : Option (Vma O)) :
    Ensures (setVma p i v) w fun _ w' ↦ Sized w w' :=
  (setVma_proc w p i v).mono fun _ _ h ↦ h.sized

private theorem mmapMapCreate_sized (w : World P O F) (p : P) (addr length prot flags : Nat)
    (type : VmaType) (object : Option O) (offset : Nat) :
    Ensures (mmapMapCreate p addr length prot flags type object offset) w fun _ w' ↦
      Sized w w' := by
  unfold mmapMapCreate
  simp only [ensures_bind, ensures_get, ensures_ite, ensures_pure]
  refine ⟨fun _ ↦ .refl w, fun _ ↦ ⟨fun _ ↦ .refl w, fun _ ↦ ⟨fun _ ↦ .refl w, fun _ ↦
    ⟨fun _ ↦ .refl w, fun _ ↦ ?_⟩⟩⟩⟩
  split
  · exact ensures_pure.mpr (.refl w)
  · simp only [ensures_bind, ensures_ite, ensures_pure]
    exact ⟨fun _ ↦ .refl w, fun _ ↦ setVma_sized w p _ _⟩

variable [DecidableEq O]

private theorem mmapPopulate_sized (w : World P O F) (p : P) (i : Fin nvma) (v : Vma O) :
    Ensures (mmapPopulate p i v) w fun _ w' ↦ Sized w w' := by
  unfold mmapPopulate
  rw [ensures_ite, ensures_pure]
  refine ⟨fun _ ↦ .refl w, fun _ ↦ ?_⟩
  have hpages : Ensures (stopAt (populatePage p v) (pages v.start v.fin)) w fun _ w' ↦
      Sized w w' := by
    refine (ensures_stopAt (fun _ w' ↦ Sized w w') (fun _ _ w' ↦ Sized w w') ?_ (.refl w)).mono ?_
    · intro n ns w1 h1
      apply (populatePage_spec w1 p v n).mono
      rintro b w2 (⟨rfl, -, h2⟩ | ⟨rfl, pa, h2⟩ | ⟨rfl, h2⟩)
      · exact h1.trans (.of_proc h2.core.proc)
      · exact h1.trans (.of_proc h2.core.proc)
      · exact h1.trans (.of_proc h2.core.proc)
    · intro r w' h'
      cases r with
      | none => exact h'
      | some n =>
        obtain ⟨_, _, h'⟩ := h'
        exact h'
  apply ensures_sized_bind hpages
  intro r w1
  cases r with
  | none =>
    simp only [ensures_bind, ensures_pure]
    exact setVma_sized w1 p i _
  | some n =>
    simp only [ensures_bind, ensures_pure]
    exact (vmaUnmapPages_spec w1 p _ _).mono fun _ _ h ↦ .of_proc h.core.proc

variable [DecidableEq F]

private theorem unmapSlots_sized (p : P) (addr fin : Nat) (is : List (Fin nvma)) (w : World P O F)
    (split : Option (Fin nvma)) :
    Ensures (unmapSlots p addr fin split is) w fun _ w' ↦ Sized w w' := by
  induction is generalizing w split with
  | nil =>
    rw [unmapSlots, ensures_pure]
    exact .refl w
  | cons i is ih =>
    rw [unmapSlots]
    apply ensures_sized_bind
    · apply (unmapSlot_spec w p addr fin split i).mono
      rintro _ w1 ⟨_, _, -, hs⟩
      exact hs.sized
    · exact fun split' w1 ↦ ih w1 split'

private theorem vmaUnmap_sized (w : World P O F) (p : P) (addr length : Nat) :
    Ensures (vmaUnmap p addr length) w fun _ w' ↦ Sized w w' := by
  unfold vmaUnmap
  simp only [ensures_bind, ensures_get, ensures_ite, ensures_pure]
  refine ⟨fun _ ↦ .refl w, fun _ ↦ ⟨fun _ ↦ .refl w, fun _ ↦ ⟨fun _ ↦ .refl w, fun _ ↦
    ⟨fun _ ↦ .refl w, fun _ ↦ ⟨fun _ ↦ .refl w, fun _ ↦ ?_⟩⟩⟩⟩⟩
  apply (writebackSlots_quiet w p _ _).mono
  intro r w1 h1
  have hsized1 : Sized w w1 := .of_proc h1.core.proc
  cases r with
  | some i => exact ensures_pure.mpr hsized1
  | none =>
    simp only [ensures_bind, ensures_pure]
    exact (unmapSlots_sized p _ _ slots w1 _).mono fun _ _ h ↦ hsized1.trans h

private theorem unmapAfter_sized (w : World P O F) (p : P) (start length : Nat) :
    Ensures (do
      let _ ← vmaUnmap p start length
      pure (none : Option Nat)) w fun _ w' ↦ Sized w w' := by
  simp only [ensures_bind, ensures_pure]
  exact vmaUnmap_sized w p start length

private theorem mapObject_sized (w : World P O F) (p : P) (addr length prot flags : Nat)
    (type : VmaType)
    (file : Option F) (offset : Nat) :
    Ensures (do
      match ← mmapObjectCreate type file flags 0 with
      | none => pure none
      | some o =>
        match ← mmapMapCreate p addr length prot flags type (some o) offset with
        | none =>
          mmapObjectPut o
          pure none
        | some start => pure (some start)) w fun _ w' ↦ Sized w w' := by
  apply ensures_sized_bind ((mmapObjectCreate_tab w type file flags 0).mono
    fun _ _ h ↦ .of_proc h.proc)
  intro r w1
  cases r with
  | none => exact ensures_pure.mpr (.refl w1)
  | some o =>
    apply ensures_sized_bind (mmapMapCreate_sized w1 p addr length prot flags type (some o) offset)
    intro r w2
    cases r with
    | none =>
      simp only [ensures_bind, ensures_pure]
      exact (mmapObjectPut_tab w2 o).mono fun _ _ h ↦ .of_proc h.proc
    | some start => exact ensures_pure.mpr (.refl w2)

private theorem mapDeviceObject_sized (w : World P O F) (p : P) (i : Fin nvma) (v : Vma O)
    (start length : Nat) (f : F) (offset : Nat) (populate : Bool) :
    Ensures (mapDeviceObject p i v start length f offset populate) w fun _ w' ↦ Sized w w' := by
  unfold mapDeviceObject
  apply ensures_sized_bind (setVma_sized w p i _)
  intro _ w1
  apply ensures_sized_bind ((mmapObjectCreate_tab w1 _ _ _ _).mono fun _ _ h ↦ .of_proc h.proc)
  intro r w2
  cases r with
  | none => exact unmapAfter_sized w2 p start length
  | some o =>
    apply ensures_sized_bind (setVma_sized w2 p i _)
    intro _ w3
    rw [ensures_ite, ensures_pure]
    refine ⟨fun _ ↦ ?_, fun _ ↦ .refl w3⟩
    apply ensures_sized_bind (mmapPopulate_sized w3 p i _)
    intro ok w4
    rw [ensures_ite, ensures_pure]
    exact ⟨fun _ ↦ .refl w4, fun _ ↦ unmapAfter_sized w4 p start length⟩

private theorem vmaMapDevice_sized (w : World P O F) (p : P) (addr length prot flags : Nat) (f : F)
    (d : DevMmap) (offset : Nat) :
    Ensures (vmaMapDevice p addr length prot flags f d offset) w fun _ w' ↦ Sized w w' := by
  unfold vmaMapDevice
  simp only [ensures_bind, ensures_get]
  rw [ensures_ite, ensures_ite, ensures_ite, ensures_pure]
  refine ⟨fun _ ↦ .refl w, fun _ ↦ ⟨fun _ ↦ .refl w, fun _ ↦ ⟨fun _ ↦ .refl w, fun _ ↦ ?_⟩⟩⟩
  apply ensures_sized_bind (mmapMapCreate_sized w p addr length prot flags .kbuf none offset)
  intro r w1
  cases r with
  | none => exact ensures_pure.mpr (.refl w1)
  | some start =>
    simp only [ensures_bind, ensures_get]
    split
    · exact unmapAfter_sized w1 p start length
    · split
      · exact ensures_pure.mpr (.refl w1)
      · rw [ensures_ite]
        refine ⟨fun _ ↦ unmapAfter_sized w1 p start length, fun _ ↦ ?_⟩
        split
        · exact unmapAfter_sized w1 p start length
        · exact mapDeviceObject_sized w1 p _ _ start length f offset _

private theorem sysMmap_sized (w : World P O F) (p : P) (addr : Nat) (length : Int)
    (prot flags : Nat)
    (fd offset : Int) :
    Ensures (sysMmap p addr length prot flags fd offset) w fun _ w' ↦ Sized w w' := by
  unfold sysMmap vmaMapAnon
  simp only [ensures_bind, ensures_get]
  rw [ensures_ite, ensures_ite, ensures_pure]
  refine ⟨fun _ ↦ .refl w, fun _ ↦ ⟨fun _ ↦ ?_, fun _ ↦ ?_⟩⟩
  · rw [ensures_ite, ensures_pure, ensures_ite, ensures_pure]
    exact ⟨fun _ ↦ .refl w, fun _ ↦ ⟨fun _ ↦ .refl w, fun _ ↦
      mapObject_sized w p addr _ prot flags .anon none 0⟩⟩
  · split
    · split
      · exact ensures_pure.mpr (.refl w)
      · split
        · exact vmaMapDevice_sized w p addr _ prot flags _ _ _
        · unfold vmaMapFile
          simp only [ensures_bind, ensures_get]
          rw [ensures_ite, ensures_ite, ensures_ite, ensures_ite, ensures_pure]
          exact ⟨fun _ ↦ .refl w, fun _ ↦ ⟨fun _ ↦ .refl w, fun _ ↦ ⟨fun _ ↦ .refl w, fun _ ↦
            ⟨fun _ ↦ .refl w, fun _ ↦ mapObject_sized w p addr _ prot flags .file _ _⟩⟩⟩⟩
    · exact ensures_pure.mpr (.refl w)

end

/-! ### The accounts -/

/-- The record and the tables of a slot are those of a vacant slot or of a process. -/
structure Settled (b : Boot P) (p : P) (w : World P O F) : Prop where
  image : w.there (.image p) = false
  size : (w.proc p).sz ≤ maxuva
  idle : (w.proc p).state = .unused → Vacant p w
  kern : w.there (.kern p) = true → (w.proc p).kstack ≠ 0
  maps : (w.proc p).kstack ≠ 0 → kstackPage ∉ b.kmaps.map Prod.fst
  entry : w.there (.kern p) = false → w.leaf (.kern p) 0 = none

/-- Every page is accounted for, and every slot is settled. -/
structure Accounts (ct : Owner P O → Option (Nat → UInt8)) (b : Boot P) (w : World P O F) :
    Prop where
  tally : Tally ct w.frames [] w
  settled : ∀ p, Settled b p w

variable {b : Boot P}

/-- Without a stack the first entry is empty. -/
theorem Settled.stackless {p : P} (h : Settled b p w)
    (hempty : (w.proc p).kstack = 0 ∨ w.there (.kern p) = false) : w.leaf (.kern p) 0 = none := by
  rcases hempty with hzero | hnone
  · cases hthere : w.there (.kern p) with
    | false => exact h.entry hthere
    | true => exact absurd hzero (h.kern hthere)
  · exact h.entry hnone

/-- What a settled slot is told by. -/
structure Seat (q : P) (w w' : World P O F) : Prop where
  state : (w'.proc q).state = (w.proc q).state
  kstack : (w'.proc q).kstack = (w.proc q).kstack
  frame : (w'.proc q).trapframe = (w.proc q).trapframe
  user : w'.there (.user q) = w.there (.user q)
  kern : w'.there (.kern q) = w.there (.kern q)
  image : w'.there (.image q) = w.there (.image q)
  entry : w.there (.kern q) = false → w'.leaf (.kern q) 0 = w.leaf (.kern q) 0

private theorem Settled.seat {q : P} {w' : World P O F} (h : Settled b q w) (h' : Seat q w w')
    (hsz : (w'.proc q).sz ≤ maxuva) : Settled b q w' := by
  refine ⟨by rw [h'.image, h.image], hsz, fun hstate ↦ ?_, ?_, ?_, fun hnone ↦ ?_⟩
  · rw [h'.state] at hstate
    have hv := h.idle hstate
    exact ⟨by rw [h'.user, hv.user], by rw [h'.kern, hv.kern], by rw [h'.entry hv.kern, hv.entry],
      by rw [h'.kstack, hv.kstack], by rw [h'.frame, hv.frame]⟩
  · rw [h'.kern, h'.kstack]
    exact h.kern
  · rw [h'.kstack]
    exact h.maps
  · rw [h'.kern] at hnone
    rw [h'.entry hnone, h.entry hnone]

/-- A slot that was taken back is settled. -/
theorem Vacant.settled {p : P} (h : Vacant p w) (himage : w.there (.image p) = false)
    (hsz : (w.proc p).sz ≤ maxuva) : Settled b p w := by
  refine ⟨himage, hsz, fun _ ↦ h, fun hthere ↦ ?_, fun hne ↦ absurd h.kstack hne, fun _ ↦ h.entry⟩
  rw [h.kern] at hthere
  cases hthere

/-- The slot of a process with a kernel stack is settled. -/
theorem Settled.of_stack {p : P} (himage : w.there (.image p) = false)
    (hsz : (w.proc p).sz ≤ maxuva) (hstate : (w.proc p).state ≠ .unused)
    (hthere : w.there (.kern p) = true) (hk : (w.proc p).kstack ≠ 0)
    (hmaps : kstackPage ∉ b.kmaps.map Prod.fst) : Settled b p w := by
  refine ⟨himage, hsz, fun h ↦ absurd h hstate, fun _ ↦ hk, fun _ ↦ hmaps, fun hnone ↦ ?_⟩
  rw [hthere] at hnone
  cases hnone

private theorem Only.seat {c q : P} {w' : World P O F} (h : Only c w w') (hq : q ≠ c) :
    Seat q w w' := by
  have hproc := h.proc q hq
  exact ⟨by rw [hproc], by rw [hproc], by rw [hproc], h.there _ (by simpa using hq) (by simp),
    h.there _ (by simp) (by simpa using hq), h.there _ (by simp) (by simp),
    fun _ ↦ by rw [h.leaf _ (by simp) (by simpa using hq)]⟩

/-- A process that changes its own memory. -/
theorem Own.seat {p q : P} {w' : World P O F} (h : Own p w w') (hk : w.there (.kern p) = true) :
    Seat q w w' := by
  have hfields : (w'.proc q).state = (w.proc q).state ∧
      (w'.proc q).kstack = (w.proc q).kstack ∧ (w'.proc q).trapframe = (w.proc q).trapframe := by
    by_cases hq : q = p
    · rw [hq, h.mine]
      exact ⟨rfl, rfl, rfl⟩
    · rw [h.proc q hq]
      exact ⟨rfl, rfl, rfl⟩
  refine ⟨hfields.1, hfields.2.1, hfields.2.2, h.there _, h.there _, h.there _, fun hnone ↦ ?_⟩
  have hq : q ≠ p := by
    rintro rfl
    rw [hk] at hnone
    cases hnone
  rw [h.leaf _ (by simp) (by simpa using hq)]

/-- A process's own step keeps the frames. -/
theorem Own.frames {p : P} {w' : World P O F} (h : Own p w w') : w'.frames = w.frames := by
  funext q
  by_cases hq : q = p
  · rw [World.frames, World.frames, hq, h.mine]
  · rw [World.frames, World.frames, h.proc q hq]

/-- A process that changes its own memory keeps the accounts. -/
theorem Accounts.own {p : P} {w' : World P O F} (h : Accounts ct b w)
    (hk : w.there (.kern p) = true) (h' : Own p w w') (hsz : (w'.proc p).sz ≤ maxuva)
    (htally : Tally ct w.frames [] w') : Accounts ct b w' := by
  refine ⟨by rwa [h'.frames], fun q ↦ (h.settled q).seat (h'.seat hk) ?_⟩
  by_cases hq : q = p
  · rwa [hq]
  · rw [h'.proc q hq]
    exact (h.settled q).size

/-- The records that the accounts see and the tables stay. -/
theorem Accounts.refiled {w' : World P O F} (h : Accounts ct b w)
    (htally : Tally ct w'.frames [] w') (hproc : ∀ q, (w'.proc q).state = (w.proc q).state ∧
      (w'.proc q).kstack = (w.proc q).kstack ∧ (w'.proc q).trapframe = (w.proc q).trapframe ∧
      (w'.proc q).sz = (w.proc q).sz) (hpt : w'.pt = w.pt) : Accounts ct b w' := by
  refine ⟨htally, fun q ↦ (h.settled q).seat ⟨(hproc q).1, (hproc q).2.1, (hproc q).2.2.1,
    World.there_eq hpt _, World.there_eq hpt _, World.there_eq hpt _,
    fun _ ↦ by rw [World.leaf_eq hpt]⟩ ?_⟩
  rw [(hproc q).2.2.2]
  exact (h.settled q).size

/-- What is in pages of which nothing is told is not accounted for. -/
theorem Tally.anyMem {fr : P → Option Nat} {hs : List Nat} (h : Tally ct fr hs w)
    {mem : Nat → Nat → UInt8}
    (hmem : ∀ x pa, ct x ≠ none → w.owns fr x = some pa → mem pa = w.mem pa) :
    Tally ct fr hs { w with mem := mem } := by
  refine ⟨h.count, h.once, h.few, h.null, h.keyed, h.member, h.base, h.stack, fun x m hx ↦ ?_⟩
  obtain ⟨pa, hpa, rfl⟩ := h.kept x m hx
  exact ⟨pa, hpa, hmem x pa (by rw [hx]; exact Option.some_ne_none _) hpa⟩

/-- Nothing is told of a page that can be written here. -/
def World.Hidden (w : World P O F) (ct : Owner P O → Option (Nat → UInt8)) (fr : P → Option Nat)
    (t : Tbl P) (n : Nat) : Prop :=
  ∀ e, w.leaf t n = some e → e.perm.w = true → ∀ x, w.owns fr x = some e.pa → ct x = none

/-- Nothing is told of the memory that a call may change. -/
def Call.Untold (ct : Owner P O → Option (Nat → UInt8)) (w : World P O F) : Call P F → Prop
  | .userinit _ | .openFile _ _ _ _ | .dup _ _ _ | .close _ _ _ | .fault _ _ _ | .fork _ _ => True
  | .mmap p _ _ _ _ _ _ | .munmap p _ _ | .sbrk p _ | .exit p => ∀ n, ct (.user p n) = none
  | .store p va _ => w.Hidden ct w.frames (.user p) (va / pgsize)
  | .copyout p va _ => w.Hidden ct w.frames (.kern p) (va / pgsize)
  | .exec p _ => ∀ x, ct x ≠ none → x.Foreign p
  | .wait _ c _ _ => ∀ z : Owner P O, z.Of c → ct z = none

/-- A call tells nothing of the others. -/
theorem Call.untold (call : Call P F) : call.Untold untold w := by
  cases call <;> first | trivial | exact fun _ ↦ rfl | exact fun _ _ ↦ rfl |
    exact fun _ h ↦ absurd rfl h | exact fun _ _ _ _ _ ↦ rfl

/-! ### The calls -/

section

variable [DecidableEq P] [Fintype P] (hP : Fintype.card P ≤ nproc)

include hP

omit [DecidableEq P] [Fintype P] hP in
/-- The pages for the arguments of `exec` are in hand. -/
theorem argvPages_tally {fr : P → Option Nat} {hs : List Nat} (args : List (List UInt8))
    (pas : List Nat) (w : World P O F)
    (h : Tally ct fr (pas ++ hs) w) :
    Ensures (argvPages args pas) w fun r w' ↦ Tally ct fr (r.2 ++ hs) w' := by
  induction args generalizing pas w with
  | nil => exact ensures_pure.mpr h
  | cons arg args ih =>
    rw [argvPages, ensures_bind]
    apply (kallocPage_tally h).mono
    rintro r w1 ⟨-, -, hr⟩
    cases r with
    | none => exact ensures_pure.mpr hr
    | some pa =>
      apply ih
      refine hr.1.perm ?_
      rw [List.append_assoc]
      exact List.perm_middle.symm

/-- `sbrk` frees the pages that the heap leaves. -/
theorem sysSbrk_tally {p : P} (n : Int) (h : Tally ct w.frames [] w)
    (hsz : (w.proc p).sz ≤ maxuva) (hct : ∀ n, ct (.user p n) = none) :
    Ensures (sysSbrk p n) w fun _ w' ↦ Tally ct w.frames [] w' ∧
      (w'.proc p).sz ≤ maxuva := by
  have hset : ∀ {w1 : World P O F} (sz : Nat), Tally ct w1.frames [] w1 →
      w1.proc = w.proc → sz ≤ maxuva →
      Ensures (setProc p fun q ↦ { q with sz := sz }) w1 fun _ w' ↦
        Tally ct w.frames [] w' ∧ (w'.proc p).sz ≤ maxuva := by
    intro w1 sz h1 hproc1 hle
    refine (setProc_tally p ?_ h1).mono ?_
    · exact fun _ ↦ ⟨rfl, rfl, rfl⟩
    rintro _ w2 ⟨h2, hproc2, -⟩
    have hframes : w2.frames = w.frames := by
      funext q
      by_cases hq : q = p
      · rw [World.frames, World.frames, hproc2, hq, update_self, hproc1]
      · rw [World.frames, World.frames, hproc2, update_of_ne hq, hproc1]
    rw [hframes] at h2
    refine ⟨h2, ?_⟩
    rw [hproc2, update_self]
    exact hle
  have hlimit : vmaHeapLimit (w.proc p).vmas ≤ maxuva :=
    (foldl_lowerLimit_le (w.proc p).vmas slots mmapTop).1.trans (by decide)
  have huser : ∀ newsz, ∀ n ∈ pages (pgroundup newsz) (pgroundup (w.proc p).sz), UserPage n :=
    fun newsz n hn ↦ userPage_of_mem_pages (pgroundup_mod _) (pgroundup_le (by decide) hsz) hn
  unfold sysSbrk
  simp only [ensures_bind, ensures_get, ensures_ite, ensures_pure]
  refine ⟨fun _ ↦ ⟨fun _ ↦ ⟨h, hsz⟩, fun hroom ↦ ?_⟩, fun _ ↦ ⟨fun _ ↦ ⟨h, hsz⟩, fun _ ↦ ?_⟩⟩
  · apply hset _ h rfl
    omega
  · have hkern : Ensures (uvmdealloc (.kern p) (w.proc p).sz
        ((w.proc p).sz - (-n).toNat) false) w fun _ w' ↦ Tally ct w.frames [] w' := by
      unfold uvmdealloc
      simp only [ensures_ite, ensures_bind, ensures_pure]
      refine ⟨fun _ ↦ h, fun _ ↦ ?_⟩
      exact (uvmunmap_unowned hP h fun n hn ↦ h.not_owned p (huser _ n hn)).mono
        fun _ _ h' ↦ h'.1
    apply ((uvmdealloc_spec w (.kern p) _ _ false).and hkern).mono
    rintro _ w1 ⟨⟨-, heff1⟩, h1⟩
    have hdrop : Ensures (uvmdealloc (.user p) (w.proc p).sz
        ((w.proc p).sz - (-n).toNat) true) w1 fun _ w' ↦ Tally ct w.frames [] w' := by
      unfold uvmdealloc
      simp only [ensures_ite, ensures_bind, ensures_pure]
      refine ⟨fun _ ↦ h1, fun _ ↦ ?_⟩
      exact (uvmunmap_process hP (t := .user p) trivial h1 (fun n hn ↦ huser _ n hn)
        fun n _ ↦ hct n).mono fun _ _ h' ↦ h'.1
    apply ((uvmdealloc_spec w1 (.user p) _ _ true).and hdrop).mono
    rintro sz w2 ⟨⟨hmin, heff2⟩, h2⟩
    have hproc2 : w2.proc = w.proc := heff2.core.proc.trans heff1.core.proc
    rw [← World.frames_eq hproc2] at h2
    exact hset sz h2 hproc2 (by rw [hmin]; exact (min_le_left _ _).trans hsz)

omit [DecidableEq P] [Fintype P] hP in
/-- A store is seen by the owners of the page only. -/
theorem store_tally {fr : P → Option Nat} (t : Tbl P) (va : Nat) (x : UInt8)
    (h : Tally ct fr [] w) (hct : w.Hidden ct fr t (va / pgsize)) :
    Ensures (store t va x) w fun _ w' ↦ Tally ct fr [] w' := by
  unfold store
  rw [ensures_bind, ensures_get]
  split
  · exact ensures_pure.mpr h
  · rename_i e he
    rw [ensures_ite, ensures_set, ensures_pure]
    refine ⟨fun hw ↦ h.anyMem fun y pa hy howns ↦ ?_, fun _ ↦ h⟩
    apply update_of_ne
    rintro rfl
    exact hy (hct e he hw y howns)

variable [DecidableEq O] [DecidableEq F]

/-- `exec` keeps the accounts, whether it succeeds or not. -/
theorem exec_accounts {hs : List Nat} {p : P} (h : Tally ct w.frames hs w)
    (hset : ∀ q, Settled b q w) (halive : Alive w p) (hlive : (w.proc p).state = .live)
    (hct : ∀ x, ct x ≠ none → x.Foreign p) (img : Image) :
    Ensures (exec b p img) w fun _ w' ↦ Tally ct w'.frames hs w' ∧ ∀ q, Settled b q w' := by
  have himage : ∀ q, w.there (.image q) = false := fun q ↦ (hset q).image
  have hsz := (hset p).size
  apply ((exec_aside hP h b halive (himage p) hsz img).and
    ((exec_tally_none hP h b halive.kern (himage p) hsz img).and
      (exec_tally_some hP h b halive himage hsz hct img))).mono
  rintro r w' ⟨⟨hnone, hsome⟩, htally, htally'⟩
  cases r with
  | none =>
    obtain ⟨-, h', himage'⟩ := htally rfl
    have haside := hnone rfl
    rw [← World.frames_eq haside.proc] at h'
    refine ⟨h', fun q ↦ ?_⟩
    refine (hset q).seat ⟨by rw [haside.proc], by rw [haside.proc], by rw [haside.proc],
      haside.there _ (by simp), haside.there _ (by simp), ?_, fun hq ↦ ?_⟩
      (by rw [haside.proc]; exact (hset q).size)
    · by_cases hq : q = p
      · rw [hq, himage', himage]
      · exact haside.there _ (by simpa using hq)
    · have hqp : q ≠ p := by
        rintro rfl
        rw [halive.kern] at hq
        cases hq
      rw [haside.leaf _ (by simp) (by simpa using hqp)]
  | some x =>
    obtain ⟨h', himage', -⟩ := htally' x.1 x.2 rfl
    obtain ⟨sz, hle, hreplaced⟩ := hsome (Option.some_ne_none x)
    obtain ⟨vmas, hproc⟩ := hreplaced.proc
    have hself : w'.proc p = { w.proc p with sz := sz, vmas := vmas } := by
      rw [hproc, update_self]
    have hother : ∀ q, q ≠ p → w'.proc q = w.proc q := fun q hq ↦ by
      rw [hproc, update_of_ne hq]
    have hframes : w'.frames = w.frames := by
      funext q
      by_cases hq : q = p
      · rw [World.frames, World.frames, hq, hself]
      · rw [World.frames, World.frames, hother q hq]
    rw [← hframes] at h'
    refine ⟨h', fun q ↦ ?_⟩
    by_cases hq : q = p
    · subst hq
      have hk : w'.there (.kern q) = true := by
        rw [hreplaced.there _ (by simp) (by simp), halive.kern]
      have hstack := (hset q).kern halive.kern
      refine .of_stack himage' (by rw [hself]; exact hle) ?_ hk (by rw [hself]; exact hstack)
        ((hset q).maps hstack)
      rw [hself]
      dsimp only
      rw [hlive]
      rintro ⟨⟩
    · refine (hset q).seat ⟨by rw [hother q hq], by rw [hother q hq], by rw [hother q hq],
        hreplaced.there _ (by simp) (by simpa using hq), hreplaced.there _ (by simp) (by simp),
        hreplaced.there _ (by simpa using hq) (by simp),
        fun _ ↦ by rw [hreplaced.leaf _ (by simp) (by simp) (by simpa using hq)]⟩ ?_
      rw [hother q hq]
      exact (hset q).size

private theorem sysExec_accounts {p : P} (h : Accounts ct b w) (halive : Alive w p)
    (hlive : (w.proc p).state = .live) (hct : ∀ x, ct x ≠ none → x.Foreign p) (img : Image) :
    Ensures (sysExec b p img) w fun _ w' ↦ Accounts ct b w' := by
  have hquiet : ∀ {w1 w2 : World P O F}, (∀ q, Settled b q w1) → Quiet w1 w2 →
      ∀ q, Settled b q w2 := by
    intro w1 w2 hset hq q
    refine (hset q).seat ⟨by rw [hq.core.proc], by rw [hq.core.proc], by rw [hq.core.proc],
      hq.core.there _, hq.core.there _, hq.core.there _, fun _ ↦ by rw [hq.leaf]⟩ ?_
    rw [hq.core.proc]
    exact (hset q).size
  have hfree : ∀ {w1 : World P O F} (pas : List Nat), Tally ct w1.frames (pas ++ []) w1 →
      (∀ q, Settled b q w1) → Ensures (forEach kfreePage pas) w1 fun _ w' ↦ Accounts ct b w' := by
    intro w1 pas h1 hset1
    apply (kfreePages_tally hP h1).mono
    rintro _ w2 ⟨hq2, h2⟩
    rw [← World.frames_eq hq2.core.proc] at h2
    exact ⟨h2, hquiet hset1 hq2⟩
  unfold sysExec
  apply ((argvPages_quiet _ _ w).and (argvPages_tally _ [] w h.tally)).bind
  rintro ⟨fetched, pas⟩ w1 ⟨hq1, h1⟩
  rw [← World.frames_eq hq1.core.proc] at h1
  have hset1 := hquiet h.settled hq1
  dsimp only at h1 ⊢
  rw [ensures_ite]
  constructor
  · intro _
    have halive1 : Alive w1 p := ⟨by rw [hq1.core.there, halive.user],
      by rw [hq1.core.there, halive.kern], halive.space.tab hq1.tab⟩
    apply (exec_accounts hP h1 hset1 halive1 (by rw [hq1.core.proc, hlive]) hct img).bind
    rintro r w2 ⟨h2, hset2⟩
    simp only [ensures_bind, ensures_pure]
    exact hfree pas h2 hset2
  · intro _
    simp only [ensures_bind, ensures_pure]
    exact hfree pas h1 hset1

omit [Fintype P] hP [DecidableEq O] in
private theorem openFile_accounts (h : Accounts ct b w) (p : P) (fd : Fin nofile) (f : F)
    (x : File) :
    Ensures (openFile p fd f x) w fun _ w' ↦ Accounts ct b w' := by
  unfold openFile
  rw [ensures_modify]
  set w' : World P O F := { w with
    file := update w.file f { x with ref := 1 }
    proc := update w.proc p
      { w.proc p with ofile := update (w.proc p).ofile fd (some f) } } with hw'
  have hsame : ∀ q, (w'.proc q).state = (w.proc q).state ∧
      (w'.proc q).kstack = (w.proc q).kstack ∧ (w'.proc q).trapframe = (w.proc q).trapframe ∧
      (w'.proc q).sz = (w.proc q).sz ∧ (w'.proc q).vmas = (w.proc q).vmas := by
    intro q
    by_cases hq : q = p
    · rw [hq, show w'.proc p = _ from update_self ..]
      exact ⟨rfl, rfl, rfl, rfl, rfl⟩
    · rw [show w'.proc q = _ from update_of_ne hq ..]
      exact ⟨rfl, rfl, rfl, rfl, rfl⟩
  refine h.refiled ?_ (fun q ↦ ⟨(hsame q).1, (hsame q).2.1, (hsame q).2.2.1, (hsame q).2.2.2.1⟩) rfl
  rw [show w'.frames = w.frames from funext fun q ↦ (hsame q).2.2.1]
  exact h.tally.alike ⟨rfl, rfl, fun q ↦ (hsame q).2.1, fun q ↦ (hsame q).2.2.2.2⟩ rfl rfl

omit [Fintype P] hP [DecidableEq O] [DecidableEq F] in
/-- A descriptor changes, and then the table of files. -/
theorem setFd_accounts (h : Accounts ct b w) (p : P) (fd : Fin nofile) (x : Option F)
    {y : Kern P O F Unit} (hy : ∀ w1 : World P O F, Tally ct w1.frames [] w1 →
      Ensures y w1 fun _ w' ↦ Tally ct w'.frames [] w' ∧ w'.proc = w1.proc ∧ w'.pt = w1.pt) :
    Ensures (setProc p (fun q ↦ { q with ofile := update q.ofile fd x }) >>= fun _ ↦ y) w
      fun _ w' ↦ Accounts ct b w' := by
  apply (setFd_tally h.tally p fd x).bind
  rintro _ w1 ⟨h1, hr1⟩
  apply (hy w1 h1).mono
  rintro _ w2 ⟨h2, hproc2, hpt2⟩
  refine h.refiled h2 (fun q ↦ ?_) (hpt2.trans hr1.pt)
  rw [hproc2]
  by_cases hq : q = p
  · rw [hq, hr1.mine]
    exact ⟨rfl, rfl, rfl, rfl⟩
  · rw [hr1.others q hq]
    exact ⟨rfl, rfl, rfl, rfl⟩

omit [DecidableEq P] [Fintype P] hP [DecidableEq O] [DecidableEq F] in
/-- A call that changes the memory of one process. -/
theorem ensures_accounts_own {α : Type} {p : P} (h : Accounts ct b w)
    (hk : w.there (.kern p) = true)
    {x : Kern P O F α} (hown : Ensures x w fun _ w' ↦ Own p w w' ∧ SpaceAt w' p)
    (hsz : Ensures x w fun _ w' ↦ (w'.proc p).sz ≤ maxuva)
    (htally : Ensures x w fun _ w' ↦ Tally ct w.frames [] w') :
    Ensures (do let _ ← x) w fun _ w' ↦ Accounts ct b w' := by
  simp only [ensures_bind, ensures_pure]
  apply (hown.and (hsz.and htally)).mono
  rintro _ w' ⟨⟨hown', -⟩, hsz', htally'⟩
  exact h.own hk hown' hsz' htally'

/-- Every call keeps the accounts. -/
theorem runCall_accounts [Fintype O] {call : Call P F} (h : Accounts ct b w) (hs : Spaces w)
    (hb : Books w) (hen : Enabled b w call) (hobjs : NoObjects ct) (hct : call.Untold ct w) :
    Ensures (runCall b call) w fun _ w' ↦ Accounts ct b w' := by
  have hroom : ∀ x, ([] : List Nat).count x < nproc := fun _ ↦ by simp [nproc]
  have hbacked : w.Backed := hb.ledger.backed
  have hsized : ∀ {p : P} {w' : World P O F}, Sized w w' → (w'.proc p).sz ≤ maxuva := by
    intro p w' hsz
    rw [hsz p]
    exact (h.settled p).size
  cases call with
  | userinit code =>
    have hunused : (w.proc b.init).state = .unused := hen
    have hset := h.settled b.init
    apply ((userinit_spec b code hunused).and (userinit_tally hP b code h.tally hunused
      (hset.idle hunused) (hb.idle _ (by rw [hunused]; rintro ⟨⟩)).vmas hset.size hobjs)).mono
    rintro _ w' ⟨⟨honly, halive⟩, h', hsz, hk, hmaps, hlive⟩
    refine ⟨h', fun q ↦ ?_⟩
    by_cases hq : q = b.init
    · subst hq
      refine .of_stack ?_ hsz (by rw [hlive]; rintro ⟨⟩) halive.kern hk hmaps
      rw [honly.there _ (by simp) (by simp), hset.image]
    · refine (h.settled q).seat (honly.seat hq) ?_
      rw [honly.proc q hq]
      exact (h.settled q).size
  | openFile p fd f x => exact openFile_accounts h p fd f x
  | dup p f fd =>
    exact setFd_accounts h p fd (some f) fun w1 h1 ↦ filedup_frames h1 f
  | close p fd f =>
    exact setFd_accounts h p fd none fun w1 h1 ↦ fileclose_frames h1 f
  | mmap p addr length prot flags fd offset =>
    have halive := hs p hen
    exact ensures_accounts_own h halive.kern
      (sysMmap_spec addr length prot flags fd offset halive.space)
      ((sysMmap_sized w p addr length prot flags fd offset).mono fun _ _ h' ↦ hsized h')
      (sysMmap_tally hP h.tally hroom halive hbacked hobjs hct addr length prot flags fd offset)
  | munmap p addr length =>
    have halive := hs p hen
    refine ensures_accounts_own h halive.kern (sysMunmap_spec addr length halive.space) ?_
      (sysMunmap_tally hP h.tally halive.space addr length hobjs fun n _ ↦ hct n)
    unfold sysMunmap
    rw [ensures_ite, ensures_pure]
    exact ⟨fun _ ↦ (h.settled p).size,
      fun _ ↦ (vmaUnmap_sized w p addr _).mono fun _ _ h' ↦ hsized h'⟩
  | sbrk p n =>
    have halive := hs p hen
    have htally := sysSbrk_tally hP n h.tally (h.settled p).size hct
    exact ensures_accounts_own h halive.kern (sysSbrk_spec n halive.space)
      (htally.mono fun _ _ h' ↦ h'.2) (htally.mono fun _ _ h' ↦ h'.1)
  | fault p address access =>
    have halive := hs p hen
    exact ensures_accounts_own h halive.kern (vmResolveFault_own address access halive.space)
      ((vmResolveFault_core w p address access).mono fun _ _ h' ↦ hsized (.of_proc h'.proc))
      (vmResolveFault_tally hP h.tally hroom halive address access)
  | store p va x =>
    apply ((store_quiet w (.user p) va x).and (store_tally (.user p) va x h.tally hct)).mono
    rintro _ w' ⟨hq, h'⟩
    rw [← World.frames_eq hq.core.proc] at h'
    exact h.refiled h' (fun q ↦ by rw [hq.core.proc]; exact ⟨rfl, rfl, rfl, rfl⟩) hq.pt
  | copyout p va x =>
    apply ((store_quiet w (.kern p) va x).and (store_tally (.kern p) va x h.tally hct)).mono
    rintro _ w' ⟨hq, h'⟩
    rw [← World.frames_eq hq.core.proc] at h'
    exact h.refiled h' (fun q ↦ by rw [hq.core.proc]; exact ⟨rfl, rfl, rfl, rfl⟩) hq.pt
  | fork p c =>
    obtain ⟨hlive, hunused⟩ := hen
    have hpc : p ≠ c := by
      rintro rfl
      rw [hunused] at hlive
      cases hlive
    have halive := hs p hlive
    have hset := h.settled c
    change Ensures (do let _ ← fork b p c) w _
    simp only [ensures_bind, ensures_pure]
    apply ((fork_spec b hpc hunused halive.space).and (fork_tally hP b hpc h.tally halive
      (h.settled p).size hunused (hset.idle hunused) hset.image
      (hb.idle c (by rw [hunused]; rintro ⟨⟩)).vmas hset.size hobjs)).mono
    rintro ok w' ⟨⟨hpair, -, hok, -⟩, h', hsz, hstack, hvacant⟩
    refine ⟨h', fun q ↦ ?_⟩
    have himage : w'.there (.image c) = false := by
      rw [hpair.there _ (by simp) (by simp), hset.image]
    by_cases hq : q = c
    · subst hq
      cases ok with
      | true =>
        obtain ⟨hlive', hk, hmaps⟩ := hstack rfl
        exact .of_stack himage hsz (by rw [hlive']; rintro ⟨⟩) (hok rfl).2.2 hk hmaps
      | false => exact (hvacant rfl).settled himage hsz
    · have hproc := hpair.proc q hq
      have hthere : w'.there (.kern q) = w.there (.kern q) :=
        hpair.there _ (by simp) (by simpa using hq)
      refine (h.settled q).seat ⟨by rw [hproc], by rw [hproc], by rw [hproc],
        hpair.there _ (by simpa using hq) (by simp), hthere, hpair.there _ (by simp) (by simp),
        fun hnone ↦ ?_⟩ (by rw [hproc]; exact (h.settled q).size)
      have hqp : q ≠ p := by
        rintro rfl
        rw [halive.kern] at hnone
        cases hnone
      rw [hpair.leaf _ (by simp) (by simpa using hqp) (by simp) (by simpa using hq)]
  | exec p img =>
    change Ensures (do let _ ← sysExec b p img) w _
    simp only [ensures_bind, ensures_pure]
    exact sysExec_accounts hP h (hs p hen) hen hct img
  | exit p =>
    have halive := hs p hen
    apply (exit_tally hP b h.tally halive hobjs hct).mono
    rintro _ w' ⟨h', hsame, hthere, hzombie, hothers⟩
    refine ⟨h', fun q ↦ ?_⟩
    obtain ⟨hsz, hk, hframe⟩ := hsame q
    by_cases hq : q = p
    · subst hq
      have hstack := (h.settled q).kern halive.kern
      refine .of_stack (by rw [hthere, (h.settled q).image]) (by rw [hsz]; exact (h.settled q).size)
        (by rw [hzombie]; rintro ⟨⟩) (by rw [hthere, halive.kern]) (by rwa [hk])
        ((h.settled q).maps hstack)
    · obtain ⟨hstate, hleaf⟩ := hothers q hq
      exact (h.settled q).seat ⟨hstate, hk, hframe, hthere _, hthere _, hthere _,
        fun _ ↦ by rw [hleaf]⟩ (by rw [hsz]; exact (h.settled q).size)
  | wait p c touched stored =>
    obtain ⟨hlive, hzombie, -⟩ := hen
    have hpc : p ≠ c := by
      rintro rfl
      rw [hzombie] at hlive
      cases hlive
    have halive := hs p hlive
    have hset := h.settled c
    change Ensures (do let _ ← waitFor b p c touched stored) w _
    simp only [ensures_bind, ensures_pure]
    apply (waitFor_tally hP b hpc touched stored h.tally halive hset.size hset.maps hset.stackless
      (hb.idle c (by rw [hzombie]; rintro ⟨⟩)).vmas hobjs hct).mono
    rintro _ w' ⟨h', hvacant, hsz, hproc, hthere, hleaf⟩
    refine ⟨h', fun q ↦ ?_⟩
    by_cases hq : q = c
    · subst hq
      exact hvacant.settled (by rw [hthere _ (by simp) (by simp), hset.image])
        (by rw [hsz]; exact Nat.zero_le _)
    · have hk : w'.there (.kern q) = w.there (.kern q) := hthere _ (by simp) (by simpa using hq)
      refine (h.settled q).seat ⟨by rw [hproc q hq], by rw [hproc q hq], by rw [hproc q hq],
        hthere _ (by simpa using hq) (by simp), hk, hthere _ (by simp) (by simp), fun hnone ↦ ?_⟩
        (by rw [hproc q hq]; exact (h.settled q).size)
      have hqp : q ≠ p := by
        rintro rfl
        rw [halive.kern] at hnone
        cases hnone
      rw [hleaf _ (by simp) (by simpa using hqp) (by simp) (by simpa using hq)]

omit [DecidableEq P] [Fintype P] hP [DecidableEq O] [DecidableEq F] in
/-- A quiet step keeps the accounts. -/
theorem Accounts.quiet {w' : World P O F} (h : Accounts ct b w) (hq : Quiet w w')
    (hquota : w'.quota = w.quota) (hmem : w'.mem = w.mem) : Accounts ct b w' := by
  refine h.refiled ?_ (fun q ↦ by rw [hq.core.proc]; exact ⟨rfl, rfl, rfl, rfl⟩) hq.pt
  rw [World.frames_eq hq.core.proc]
  exact h.tally.quiet hq hquota hmem

omit [DecidableEq P] [Fintype P] hP [DecidableEq O] [DecidableEq F] in
private theorem accounts_boot (data : Nat → List UInt8) :
    Accounts untold b (World.boot data : World P O F) := by
  refine ⟨Tally.of_blank (fun _ ↦ rfl) (fun _ ↦ rfl) (fun _ ↦ rfl) (fun _ ↦ rfl)
    fun _ ↦ ⟨rfl, rfl⟩, fun p ↦ ?_⟩
  have hvacant : Vacant p (World.boot data : World P O F) :=
    ⟨rfl, rfl, Std.ExtTreeMap.getElem?_empty, rfl, rfl⟩
  exact hvacant.settled rfl (Nat.zero_le _)

/-- The accounts, the address spaces and the reference counts are in order after every run. -/
theorem accounts_of_runs [Fintype O] {data : Nat → List UInt8} {es : List (Event P O F)}
    (h : Runs (Step b) (World.boot data) es w) : Accounts untold b w ∧ Spaces w ∧ Books w := by
  refine Runs.invariant (fun w ↦ Accounts untold b w ∧ Spaces w ∧ Books w) ?_ h ?_
  · rintro w1 e w2 ⟨haccounts, hspaces, hbooks⟩ hstep
    refine ⟨?_, hspaces.step hstep, hbooks.step hspaces hstep⟩
    have hquiet : Quiet w1 { w1 with answers := e.answers, io := e.io, slept := false } :=
      .of_eq rfl rfl rfl rfl rfl
    exact (runCall_accounts hP (haccounts.quiet hquiet rfl rfl) (hspaces.quiet hquiet)
      (hbooks.quiet hquiet) hstep.1 (fun _ _ _ ↦ rfl) (Call.untold e.call)).of_ok () w2 hstep.2
  · exact ⟨accounts_boot data, spaces_of_runs (b := b) (.nil _), books_of_runs (b := b) (.nil _)⟩

/-- The page of an entry for user memory belongs to no table, is no trap frame and no kernel stack,
and the process has no other entry for it. -/
theorem user_page_apart [Fintype O] {data : Nat → List UInt8} {es : List (Event P O F)}
    (h : Runs (Step b) (World.boot data) es w) {p : P} {n : Nat} (hn : n * pgsize < maxuva)
    {e : Pte} (he : w.leaf (.user p) n = some e) :
    (∀ t, (w.pt t).root ≠ some e.pa ∧ ∀ k : Nat, (w.pt t).l1[k]? ≠ some e.pa ∧
      (w.pt t).l0[k]? ≠ some e.pa) ∧
    (∀ q, (w.proc q).trapframe ≠ some e.pa) ∧
    (∀ q e', (w.proc q).kstack ≠ 0 → w.leaf (.kern q) (w.proc q).kstack = some e' →
      e'.pa ≠ e.pa) ∧
    ∀ m e', m * pgsize < maxuva → w.leaf (.user p) m = some e' → e'.pa = e.pa → m = n := by
  have htally := (accounts_of_runs hP h).1.tally
  have howns : ∀ {m e'}, m * pgsize < maxuva → w.leaf (.user p) m = some e' →
      w.owns w.frames (.user p m) = some e'.pa := by
    intro m e' hm he'
    exact (if_pos hm).trans (by rw [he']; rfl)
  -- an owner that is neither an entry nor part of an object shares with nobody
  have hnone : ∀ y : Owner P O, w.owns w.frames y = some e.pa →
      Owner.user p n = y ∨ (Owner.user p n).Shares y :=
    fun y hy ↦ htally.once _ y e.pa (howns hn he) hy
  refine ⟨fun t ↦ ⟨fun hroot ↦ ?_, fun k ↦ ⟨fun hmid ↦ ?_, fun hlow ↦ ?_⟩⟩, fun q hframe ↦ ?_,
    fun q e' hk he' hpa ↦ ?_, fun m e' hm he' hpa ↦ ?_⟩
  · rcases hnone (.root t) hroot with heq | hshares
    · cases heq
    · exact hshares
  · rcases hnone (.mid t k) hmid with heq | hshares
    · cases heq
    · exact hshares
  · rcases hnone (.low t k) hlow with heq | hshares
    · cases heq
    · exact hshares
  · rcases hnone (.frame q) hframe with heq | hshares
    · cases heq
    · exact hshares
  · have hstack : w.owns w.frames (.stack q) = some e.pa := by
      rw [← hpa]
      exact (if_neg hk).trans (by rw [he']; rfl)
    rcases hnone (.stack q) hstack with heq | hshares
    · cases heq
    · exact hshares
  · have hother := howns hm he'
    rw [hpa] at hother
    rcases hnone (.user p m) hother with heq | hshares
    · cases heq
      rfl
    · exact absurd rfl hshares

end

/-- User memory of the first process. -/
theorem user_page_apart_small : ∃ (w : World Bool (Fin 64) Nat) (e : Pte),
    (∃ es, Runs (Step .small) (World.boot fun _ ↦ []) es w) ∧
    w.leaf (.user false) 0 = some e ∧ ∀ q, (w.proc q).trapframe ≠ some e.pa := by
  let event (call : Call Bool Nat) (pa : Nat) : Event Bool (Fin 64) Nat :=
    ⟨call, (List.range' pa 20).map fun i ↦ some (i, Fin.ofNat 64 i), []⟩
  have hafter : ((World.boot fun _ ↦ []).after Boot.small [event (.userinit fun _ ↦ 0) 10]).any
      fun w ↦ (w.leaf (.user false) 0).isSome := by
    decide +kernel
  obtain ⟨w, hrun, hgood⟩ := World.runs_of_after hafter
  obtain ⟨e, he⟩ := Option.isSome_iff_exists.mp hgood
  exact ⟨w, e, ⟨_, hrun⟩, he, (user_page_apart (by decide) hrun (by decide) he).2.1⟩

end Xv6K210.Vm
