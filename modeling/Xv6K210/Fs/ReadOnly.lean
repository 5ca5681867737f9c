import Xv6K210.Fs.Descriptors

/-!
# Read-only files

What the routines below the calls on a file keep, all the calls keep but an `open`
that truncates. `ewrite` tests `ATTR_READ_ONLY`; `sys_open` calls `etrunc` without that test.
-/

namespace Xv6K210.Fs

open Xv6K210.Base Prog Function

variable {P F O : Type}

/-! ### What all calls keep -/

/-- A property of the volume and its entries that the routines called for entry `i` keep. -/
structure Stable (i : Nat) (inv : FsState → Prop) : Prop where
  addRef : ∀ s d, inv s → inv (s.addRef i d)
  put : ∀ s s', inv s → stepFs s (.put i) = .ok s' → inv s'
  next : ∀ s s' k off, inv s → stepFs s (.next k off) = .ok s' → inv s'
  reload : ∀ s s' k, inv s → stepFs s (.reload k) = .ok s' → inv s'
  write : ∀ s e x off n v' e' r, inv s → s.ent i = some e →
    ewrite s.vol e x off n = .ok (v', e', r) → inv (s.set v' i (some e'))
  read : ∀ s e x off n v' e' r out, inv s → s.ent i = some e → x.Reads →
    eread s.vol e x off n = .ok (v', e', r, out) → inv (s.set v' i (some e'))

/-- A routine that returns keeps the property. -/
def Preserves {α : Type} (inv : FsState → Prop) (x : Using P F O α) : Prop :=
  Keeps (fun _ ↦ True) (fun s ↦ inv s.fs) x fun _ ↦ True

section Preserves

variable {i : Nat} {inv : FsState → Prop} {α β : Type}

private theorem preserves_pure (a : α) : Preserves inv (pure a : Using P F O α) :=
    keeps_pure trivial

private theorem preserves_bind {x : Using P F O α} {f : α → Using P F O β} (hx : Preserves inv x)
    (hf : ∀ a, Preserves inv (f a)) : Preserves inv (x >>= f) := keeps_bind hx fun a _ ↦ hf a

private theorem preserves_get_bind {f : Users P F O → Using P F O β}
    (hf : ∀ s, Preserves inv (f s)) :
    Preserves inv (get >>= f) := keeps_get_bind fun s _ ↦ hf s

private theorem preserves_halt (msg : String) : Preserves inv (Prog.halt msg : Using P F O α) :=
  keeps_halt trivial

private theorem preserves_ite {c : Prop} [Decidable c] {x y : Using P F O α} (hx : Preserves inv x)
    (hy : Preserves inv y) : Preserves inv (if c then x else y) :=
  keeps_ite (fun _ ↦ hx) fun _ ↦ hy

private theorem preserves_doIf {c : Prop} [Decidable c] {x : Using P F O Unit}
    (hx : Preserves inv x) : Preserves inv (doIf c x) := keeps_doIf fun _ ↦ hx

private theorem preserves_forEach {f : α → Using P F O Unit} (xs : List α)
    (h : ∀ x, Preserves inv (f x)) : Preserves inv (forEach f xs) := keeps_forEach fun x _ ↦ h x

private theorem preserves_stopAt {f : α → Using P F O Bool} (xs : List α)
    (h : ∀ x, Preserves inv (f x)) : Preserves inv (stopAt f xs) := keeps_stopAt fun x _ ↦ h x

/-- Whatever is not the volume may change. -/
theorem preserves_rest {f : Users P F O → Users P F O} (h : ∀ s, (f s).fs = s.fs) :
    Preserves inv (modify f) := by
  apply keeps_modify
  intro s hs
  rw [h]
  exact hs

private theorem preserves_ofFs (x : Except Panic α) : Preserves inv (ofFs x : Using P F O α) := by
  cases x with
  | ok a => exact preserves_pure a
  | error p => exact preserves_halt _

private theorem preserves_entry : Preserves inv (entry i : Using P F O Dirent) := by
  apply preserves_get_bind
  intro s
  split
  · exact preserves_halt _
  · exact preserves_pure _

private theorem setFile_preserves [DecidableEq F] (f : F) (g : FileSlot → FileSlot) :
    Preserves inv (setFile f g : Using P F O Unit) := preserves_rest fun _ ↦ rfl

private theorem setFd_preserves [DecidableEq P] (p : P) (fd : Fin Vm.nofile) (f : Option F) :
    Preserves inv (setFd p fd f : Using P F O Unit) := preserves_rest fun _ ↦ rfl

private theorem setObj_preserves [DecidableEq O] (o : O) (x : Option (Vm.MmapObject F)) :
    Preserves inv (setObj o x : Using P F O Unit) := preserves_rest fun _ ↦ rfl

private theorem setVma_preserves [DecidableEq P] (p : P) (j : Fin Vm.nvma) (v : Option (Vm.Vma O)) :
    Preserves inv (setVma p j v : Using P F O Unit) := preserves_rest fun _ ↦ rfl

/-- A step on the volume that keeps the property. -/
theorem preserves_onVolume {op : Op} (h : ∀ s s', inv s → stepFs s op = .ok s' → inv s') :
    Preserves inv (onVolume op : Using P F O Unit) := by
  apply keeps_get_bind
  intro s hs
  cases hop : stepFs s.fs op with
  | error p => exact preserves_halt _
  | ok s' => exact keeps_set (h s.fs s' hs hop)

/-- A routine on the volume and the entry that keeps the property. -/
theorem preserves_onEntry {f : Volume → Dirent → Except Panic (Volume × Dirent × α)}
    (h : ∀ s e v' e' a, inv s → s.ent i = some e → f s.vol e = .ok (v', e', a) →
      inv (s.set v' i (some e'))) : Preserves inv (onEntry i f : Using P F O α) := by
  apply keeps_get_bind
  intro s hs
  cases he : s.fs.ent i with
  | none => exact preserves_halt _
  | some e =>
    dsimp only
    cases hf : f s.fs.vol e with
    | error p => exact preserves_halt _
    | ok r =>
      rw [show ofFs (.ok r) = (pure r : Using P F O _) from rfl, pure_bind]
      exact keeps_bind (keeps_set (h s.fs e r.1 r.2.1 r.2.2 hs he hf)) fun _ _ ↦ preserves_pure _

end Preserves

/-! ### The calls -/

section Calls

variable {i : Nat} {inv : FsState → Prop} (hst : Stable i inv)

include hst

private theorem edup_preserves : Preserves inv (edup i : Using P F O Unit) :=
  keeps_modify fun s hs ↦ hst.addRef s.fs 1 hs

private theorem eput_preserves : Preserves inv (eput i : Using P F O Unit) := by
  apply preserves_bind preserves_entry
  intro e
  apply preserves_bind (preserves_doIf (preserves_onVolume hst.put))
  intro _
  exact keeps_modify fun s hs ↦ hst.addRef s.fs (-1) hs

-- The rounds of the loop, each from the volume and the entry that the one before left.
private theorem filewriteLoop_stable (mem : Nat → Option UInt8) (addr : Nat) (n : Int) :
    ∀ (fuel : Nat) {s : FsState} {e v' e' f f'} {k k' : Nat}, inv s → s.ent i = some e →
    filewriteLoop mem addr n fuel s.vol e f k = .ok (v', e', f', k') → inv (s.set v' i (some e'))
  | 0, s, e, v', e', f, f', k, k', hs, he, h => by
    simp only [filewriteLoop, Except.ok.injEq, Prod.mk.injEq] at h
    obtain ⟨rfl, rfl, _⟩ := h
    rw [FsState.set, ← he, update_eq_self]
    exact hs
  | fuel + 1, s, e, v', e', f, f', k, k', hs, he, h => by
    have hself : inv (s.set s.vol i (some e)) := by
      rw [FsState.set, ← he, update_eq_self]
      exact hs
    rw [filewriteLoop] at h
    split at h
    · dsimp only at h
      split at h
      · cases h
      · split at h
        · cases h
        · next v1 e1 r hw =>
          have h1 := hst.write s e _ _ _ v1 e1 r hs he hw
          split at h
          · simp only [Except.ok.injEq, Prod.mk.injEq] at h
            obtain ⟨rfl, rfl, _⟩ := h
            exact h1
          · split at h
            · cases h
            · have hset : (s.set v1 i (some e1)).ent i = some e1 := update_self ..
              have h2 := filewriteLoop_stable mem addr n fuel h1 hset h
              rw [FsState.set] at h2
              simp only [FsState.set, update_idem] at h2
              exact h2
    · simp only [Except.ok.injEq, Prod.mk.injEq] at h
      obtain ⟨rfl, rfl, _⟩ := h
      exact hself

private theorem filewrite_stable {s : FsState} {e e' : Dirent} {v' : Volume} {f f' : FileEntry}
    {mem : Nat → Option UInt8} {addr : Nat} {n r : Int} (hs : inv s) (he : s.ent i = some e)
    (h : filewrite s.vol e f mem addr n = .ok (v', e', f', r)) : inv (s.set v' i (some e')) := by
  unfold filewrite at h
  split at h
  · simp only [Except.ok.injEq, Prod.mk.injEq] at h
    obtain ⟨rfl, rfl, _⟩ := h
    rw [FsState.set, ← he, update_eq_self]
    exact hs
  · split at h
    · cases h
    · next hl =>
      simp only [Except.ok.injEq, Prod.mk.injEq] at h
      obtain ⟨rfl, rfl, _⟩ := h
      exact filewriteLoop_stable hst mem addr n _ hs he hl

private theorem ewriteAt_stable {s : FsState} {e e' : Dirent} {v' : Volume} {page : ByteMem}
    {offset n : Nat} {b : Bool} (hs : inv s) (he : s.ent i = some e)
    (h : ewriteAt page offset n s.vol e = .ok (v', e', b)) : inv (s.set v' i (some e')) := by
  unfold ewriteAt at h
  obtain ⟨-, -, h⟩ := bind_eq_ok h
  split at h
  · simp only [pure, Except.pure, Except.ok.injEq, Prod.mk.injEq] at h
    obtain ⟨rfl, rfl, _⟩ := h
    rw [FsState.set, ← he, update_eq_self]
    exact hs
  · obtain ⟨⟨v1, e1, r⟩, hw, h⟩ := bind_eq_ok h
    simp only [pure, Except.pure, Except.ok.injEq, Prod.mk.injEq] at h
    obtain ⟨rfl, rfl, _⟩ := h
    exact hst.write s e _ _ _ v1 e1 r hs he hw

private theorem fileclose_preserves [DecidableEq F] (f : F) :
    Preserves inv (fileclose i f : Using P F O Unit) := by
  apply preserves_get_bind
  intro s
  apply preserves_ite (preserves_halt _)
  apply preserves_ite
  · apply preserves_bind (setFile_preserves f _)
    intro _
    exact preserves_doIf (eput_preserves hst)
  · exact setFile_preserves f _

private theorem openPath_preserves (omode : BitVec 32) :
    Preserves inv (openPath i omode : Using P F O (Option Dirent)) := by
  apply preserves_bind (edup_preserves hst)
  intro _
  apply preserves_bind preserves_entry
  intro e
  have hput : Preserves inv (do eput i; pure none : Using P F O (Option Dirent)) :=
    preserves_bind (eput_preserves hst) fun _ ↦ preserves_pure _
  apply preserves_ite
  · apply preserves_ite hput
    exact preserves_bind (preserves_ofFs _) fun _ ↦ preserves_pure _
  · apply preserves_bind (preserves_ofFs _)
    intro _
    exact preserves_ite hput (preserves_pure _)

private theorem openSlot_preserves [DecidableEq P] [DecidableEq F] (ftable : List F) (p : P) :
    Preserves inv (openSlot i ftable p : Using P F O (Option (F × Fin Vm.nofile))) := by
  have halloc : Preserves inv (filealloc ftable : Using P F O (Option F)) := by
    apply preserves_get_bind
    intro s
    split
    · exact preserves_pure _
    · exact preserves_bind (setFile_preserves _ _) fun _ ↦ preserves_pure _
  apply preserves_bind halloc
  intro r
  cases r with
  | none => exact preserves_pure _
  | some f =>
    have hfd : Preserves inv (fdalloc p f : Using P F O (Option (Fin Vm.nofile))) := by
      apply preserves_get_bind
      intro s
      split
      · exact preserves_pure _
      · exact preserves_bind (setFd_preserves p _ _) fun _ ↦ preserves_pure _
    apply preserves_bind hfd
    intro r
    cases r with
    | none => exact preserves_bind (fileclose_preserves hst f) fun _ ↦ preserves_pure _
    | some fd => exact preserves_pure _

private theorem openFile_preserves [DecidableEq P] [DecidableEq F] (p : P) (f : F)
    (fd : Fin Vm.nofile) (omode : BitVec 32)
    (readable writable opened : Bool) :
    Preserves inv (openFile i p f fd omode readable writable opened :
      Using P F O (Option (Fin Vm.nofile))) := by
  apply preserves_bind preserves_entry
  intro e
  apply preserves_ite
  · apply preserves_bind (setFile_preserves f _)
    intro _
    apply preserves_ite (preserves_pure _)
    apply preserves_bind (setFd_preserves p fd none)
    intro _
    apply preserves_bind (fileclose_preserves hst f)
    intro _
    exact preserves_bind (eput_preserves hst) fun _ ↦ preserves_pure _
  · exact preserves_bind (setFile_preserves f _) fun _ ↦ preserves_pure _

private theorem sysWrite_preserves [DecidableEq F] (p : P) (fd : Fin Vm.nofile)
    (mem : Nat → Option UInt8) (addr : Nat)
    (n : Int) : Preserves inv (sysWrite i p fd mem addr n : Using P F O Int) := by
  apply preserves_get_bind
  intro s
  split
  · exact preserves_pure _
  · next f _ =>
    apply preserves_ite (preserves_pure _)
    apply preserves_ite
    · apply preserves_bind (preserves_onEntry fun s e v' e' a hs he h ↦
        filewrite_stable hst hs he h)
      intro a
      exact preserves_bind (setFile_preserves f _) fun _ ↦ preserves_pure _
    · exact preserves_ite (preserves_pure _) (preserves_halt _)

private theorem sysClose_preserves [DecidableEq P] [DecidableEq F] (p : P) (fd : Fin Vm.nofile) :
    Preserves inv (sysClose i p fd : Using P F O Unit) := by
  apply preserves_get_bind
  intro s
  split
  · exact preserves_pure _
  · exact preserves_bind (setFd_preserves p fd none) fun _ ↦ fileclose_preserves hst _

/-! ### Mappings -/

private theorem filereadAt_preserves (f : F) (offset n : Nat) :
    Preserves inv (filereadAt i f offset n : Using P F O Bool) := by
  apply preserves_get_bind
  intro s
  apply preserves_ite (preserves_pure _)
  apply preserves_bind (preserves_onEntry ?_) fun _ ↦ preserves_pure _
  intro s e v' e' a hs he h
  obtain ⟨-, -, h⟩ := bind_eq_ok h
  exact hst.read s e (.read fun _ ↦ true) _ _ v' e' a.1 a.2 hs he trivial h

private theorem filewriteAt_preserves (f : F) (page : ByteMem) (offset n : Nat) :
    Preserves inv (filewriteAt i f page offset n : Using P F O Bool) := by
  apply preserves_get_bind
  intro s
  apply preserves_ite (preserves_pure _)
  exact preserves_onEntry fun s e v' e' a hs he h ↦ ewriteAt_stable hst hs he h

private theorem mmapObjectPut_preserves [DecidableEq F] [DecidableEq O] (o : O) :
    Preserves inv (mmapObjectPut i o : Using P F O Unit) := by
  apply preserves_get_bind
  intro s
  split
  · exact preserves_halt _
  · apply preserves_ite (preserves_halt _)
    apply preserves_ite
    · apply preserves_bind (preserves_forEach _ (fileclose_preserves hst))
      intro _
      exact setObj_preserves o none
    · exact setObj_preserves o _

private theorem sysMmap_preserves [DecidableEq P] [DecidableEq F] [DecidableEq O] (p : P)
    (addr : Nat) (length : Int) (prot flags : Nat)
    (fd : Fin Vm.nofile) (offset : Int) (start : Nat) (object : Option O) :
    Preserves inv (sysMmap i p addr length prot flags fd offset start object :
      Using P F O Bool) := by
  have hcreate : ∀ o, Preserves inv (mmapMapCreate p addr length.toNat prot flags o offset.toNat
      start : Using P F O Bool) := by
    intro o
    apply preserves_get_bind
    intro s
    apply preserves_ite (preserves_pure _)
    apply preserves_ite (preserves_pure _)
    split
    · exact preserves_pure _
    · apply preserves_ite (preserves_pure _)
      exact preserves_bind (setVma_preserves p _ _) fun _ ↦ preserves_pure _
  apply preserves_get_bind
  intro s
  apply preserves_ite (preserves_pure _)
  split
  · exact preserves_pure _
  · apply preserves_ite (preserves_pure _)
    apply preserves_get_bind
    intro s
    apply preserves_ite (preserves_pure _)
    apply preserves_ite (preserves_pure _)
    apply preserves_ite (preserves_pure _)
    apply preserves_ite (preserves_pure _)
    split
    · exact preserves_pure _
    · next o =>
      have hdup : ∀ f, Preserves inv (filedup f : Using P F O Unit) := by
        intro f
        apply preserves_get_bind
        intro s
        exact preserves_ite (preserves_halt _) (setFile_preserves f _)
      apply preserves_bind (hdup _)
      intro _
      apply preserves_bind (setObj_preserves o _)
      intro _
      apply preserves_bind (hcreate o)
      intro b
      apply preserves_ite (preserves_pure _)
      exact preserves_bind (mmapObjectPut_preserves hst o) fun _ ↦ preserves_pure _

private theorem mmapFileFault_preserves (p : P) (n : Nat) :
    Preserves inv (mmapFileFault i p n : Using P F O Bool) := by
  apply preserves_get_bind
  intro s
  split
  · exact preserves_pure _
  · apply preserves_ite (preserves_pure _)
    apply preserves_ite (preserves_pure _)
    apply preserves_ite (preserves_pure _)
    split
    · exact preserves_halt _
    · exact filereadAt_preserves hst _ _ _

/-- Write-back passes `filewrite_at`. -/
theorem mmapFileWritebackPage_preserves (pages : Nat → Option ByteMem) (v : Vm.Vma O) (n : Nat) :
    Preserves inv (mmapFileWritebackPage i pages v n : Using P F O Bool) := by
  apply preserves_ite (preserves_pure _)
  split
  · exact preserves_pure _
  · apply preserves_ite (preserves_pure _)
    apply preserves_ite (preserves_pure _)
    apply preserves_get_bind
    intro s
    split
    · exact preserves_halt _
    · exact filewriteAt_preserves hst _ _ _ _

private theorem unmapSlot_preserves [DecidableEq P] [DecidableEq F] [DecidableEq O] (p : P)
    (addr fin : Nat) (split : Option (Fin Vm.nvma))
    (j : Fin Vm.nvma) :
    Preserves inv (unmapSlot i p addr fin split j : Using P F O (Option (Fin Vm.nvma))) := by
  have hget : ∀ o : Option O, Preserves inv (mmapObjectGet o : Using P F O Unit) := by
    intro o
    apply preserves_get_bind
    intro s
    split
    · exact preserves_ite (preserves_halt _) (setObj_preserves _ _)
    · exact preserves_halt _
  apply preserves_get_bind
  intro s
  split
  · exact preserves_pure _
  · apply preserves_ite ?_ (preserves_pure _)
    apply preserves_ite
    · apply preserves_bind (setVma_preserves p _ _)
      intro _
      apply preserves_bind (preserves_forEach _ (mmapObjectPut_preserves hst))
      exact fun _ ↦ preserves_pure _
    · apply preserves_ite (preserves_bind (setVma_preserves p _ _) fun _ ↦ preserves_pure _)
      apply preserves_ite (preserves_bind (setVma_preserves p _ _) fun _ ↦ preserves_pure _)
      split
      · exact preserves_halt _
      · apply preserves_bind (setVma_preserves p _ _)
        intro _
        apply preserves_bind (hget _)
        intro _
        exact preserves_bind (setVma_preserves p _ _) fun _ ↦ preserves_pure _

private theorem unmapSlots_preserves [DecidableEq P] [DecidableEq F] [DecidableEq O] (p : P)
    (addr fin : Nat) : ∀ (js : List (Fin Vm.nvma))
    (split : Option (Fin Vm.nvma)),
    Preserves inv (unmapSlots i p addr fin split js : Using P F O Unit)
  | [], _ => preserves_pure _
  | j :: js, split => preserves_bind (unmapSlot_preserves hst p addr fin split j) fun split' ↦
      unmapSlots_preserves p addr fin js split'

private theorem sysMunmap_preserves [DecidableEq P] [DecidableEq F] [DecidableEq O] (p : P)
    (pages : Nat → Option ByteMem) (addr : Nat) (length : Int) :
    Preserves inv (sysMunmap i p pages addr length : Using P F O Bool) := by
  have hback : ∀ fin j, Preserves inv (writebackSlot i p pages addr fin j : Using P F O Bool) := by
    intro fin j
    apply preserves_get_bind
    intro s
    split
    · exact preserves_pure _
    · apply preserves_ite ?_ (preserves_pure _)
      apply preserves_bind
      · exact preserves_stopAt _ fun n ↦ mmapFileWritebackPage_preserves hst pages _ n
      · exact fun _ ↦ preserves_pure _
  apply preserves_get_bind
  intro s
  apply preserves_ite (preserves_pure _)
  apply preserves_ite (preserves_pure _)
  apply preserves_ite (preserves_pure _)
  apply preserves_ite (preserves_pure _)
  apply preserves_ite (preserves_pure _)
  apply preserves_bind (preserves_stopAt _ fun j ↦ hback _ j)
  intro r
  cases r with
  | some j => exact preserves_pure _
  | none => exact preserves_bind (unmapSlots_preserves hst p _ _ _ _) fun _ ↦ preserves_pure _

end Calls

/-! ### Opening without truncation -/

/-- An `open` that gets as far as `etrunc`: accepted flags with `O_TRUNC`, an entry that is no
directory, a free file and a free descriptor. -/
def Truncates (i : Nat) (ftable : List F) (s : Users P F O) : UserOp P O → Prop
  | .open p omode _ =>
    omode &&& ~~~(Vm.oAccmode ||| Vm.oCreate ||| Vm.oTrunc ||| Vm.oOther) = 0 ∧
      (Vm.parseAccessMode omode).isSome = true ∧ omode &&& Vm.oTrunc ≠ 0 ∧
      (∃ e, s.fs.ent i = some e ∧ e.attr &&& attrDirectory = 0) ∧
      (∃ f ∈ ftable, (s.file f).ref = 0) ∧ ∃ fd, s.ofile p fd = none
  | _ => False

section Open

variable {i : Nat} {inv : FsState → Prop} {s : Users P F O}

/-- What a routine keeps from one state. -/
theorem Preserves.at {α : Type} {x : Using P F O α} (h : Preserves inv x) (hs : inv s.fs) :
    Ensures x s fun _ t ↦ inv t.fs := ⟨fun a t heq ↦ (h.of_ok s a t hs heq).1⟩

private theorem ensures_entry {Q : Dirent → Users P F O → Prop}
    (h : ∀ e, s.fs.ent i = some e → Q e s) : Ensures (entry i) s Q := by
  unfold entry
  rw [ensures_bind, ensures_get]
  cases he : s.fs.ent i with
  | none => exact ensures_halt
  | some e => exact ensures_pure.mpr (h e he)

private theorem ensures_ofFs {α : Type} {x : Except Panic α} {Q : α → Users P F O → Prop}
    (h : ∀ a, x = .ok a → Q a s) : Ensures (ofFs x) s Q := by
  cases x with
  | error p => exact ensures_halt
  | ok a => exact ensures_pure.mpr (h a rfl)

/-- The entry that is opened has the attributes it had, and nothing but its count changed. -/
theorem openPath_spec (omode : BitVec 32) :
    Ensures (openPath i omode) s fun r t ↦ ∀ e, r = some e →
      t.file = s.file ∧ t.ofile = s.ofile ∧ ∃ e', s.fs.ent i = some e' ∧ e.attr = e'.attr := by
  unfold openPath edup
  rw [ensures_bind, ensures_modify, ensures_bind]
  apply ensures_entry
  intro e he
  have hsame : ∃ e', s.fs.ent i = some e' ∧ e.attr = e'.attr := by
    simp only [FsState.addRef, FsState.set, update_self, Option.map_eq_some_iff] at he
    obtain ⟨e', he', rfl⟩ := he
    exact ⟨e', he', rfl⟩
  have hput : ∀ t, Ensures (do eput i; pure none : Using P F O (Option Dirent)) t fun r u ↦
      ∀ e, r = some e → u.file = s.file ∧ u.ofile = s.ofile ∧
        ∃ e', s.fs.ent i = some e' ∧ e.attr = e'.attr := by
    intro t
    apply ensures_bind_of
    intro _ u
    rw [ensures_pure]
    exact fun _ hn ↦ by cases hn
  simp only [ensures_ite, ensures_bind]
  refine ⟨fun _ ↦ ⟨fun _ ↦ ensures_bind.mp (hput _), fun _ ↦ ?_⟩, fun _ ↦ ?_⟩
  · apply ensures_ofFs
    intro _ _
    rw [ensures_pure]
    intro e1 h1
    cases h1
    exact ⟨rfl, rfl, hsame⟩
  · apply ensures_ofFs
    intro _ _
    refine ⟨fun _ ↦ ensures_bind.mp (hput _), fun _ ↦ ?_⟩
    rw [ensures_pure]
    intro e1 h1
    cases h1
    exact ⟨rfl, rfl, hsame⟩

/-- A file and a descriptor are found only where they were free. -/
theorem openSlot_spec [DecidableEq P] [DecidableEq F] (ftable : List F) (p : P) :
    Ensures (openSlot i ftable p) s fun r _ ↦ r.isSome = true →
      (∃ f ∈ ftable, (s.file f).ref = 0) ∧ ∃ fd, s.ofile p fd = none := by
  unfold openSlot filealloc
  rw [ensures_bind, ensures_bind, ensures_get]
  cases hf : ftable.find? fun f ↦ (s.file f).ref = 0 with
  | none => simp only [ensures_pure, Option.isSome_none, Bool.false_eq_true, false_implies]
  | some f =>
    have hfree : ∃ f ∈ ftable, (s.file f).ref = 0 :=
      ⟨f, List.mem_of_find?_eq_some hf, by simpa using List.find?_some hf⟩
    unfold setFile fdalloc
    simp only [ensures_bind, ensures_modify, ensures_pure, ensures_get]
    cases hd : (List.finRange Vm.nofile).find? fun fd ↦ (s.ofile p fd).isNone with
    | none =>
      simp only [ensures_bind, ensures_pure, Option.isSome_none, Bool.false_eq_true,
        false_implies]
      exact ⟨fun _ _ _ ↦ trivial⟩
    | some fd =>
      have hfd : s.ofile p fd = none := by simpa using List.find?_some hd
      simp only [setFd, ensures_bind, ensures_modify, ensures_pure]
      exact fun _ ↦ ⟨hfree, fd, hfd⟩

/-- An `open` that does not truncate keeps what the routines below it keep. -/
theorem sysOpen_keeps [DecidableEq P] [DecidableEq F] (hst : Stable i inv) (ftable : List F)
    (p : P) (omode : BitVec 32) (opened : Bool) (hs : inv s.fs)
    (ht : ¬ Truncates i ftable s (.open p omode opened : UserOp P O)) :
    Ensures (sysOpen i ftable p omode opened) s fun _ t ↦ inv t.fs := by
  unfold sysOpen
  rw [ensures_ite]
  refine ⟨fun _ ↦ ensures_pure.mpr hs, fun hbits ↦ ?_⟩
  cases hmode : Vm.parseAccessMode omode with
  | none => exact ensures_pure.mpr hs
  | some rw' =>
    dsimp only
    refine (((openPath_preserves hst omode).at hs).and (openPath_spec omode)).bind ?_
    rintro r t ⟨hinv, hpath⟩
    cases r with
    | none => exact ensures_pure.mpr hinv
    | some e =>
      obtain ⟨hfile, hofile, e', he', hattr⟩ := hpath e rfl
      dsimp only
      refine (((openSlot_preserves hst ftable p).at hinv).and (openSlot_spec ftable p)).bind ?_
      rintro r u ⟨hinv', hslot⟩
      cases r with
      | none =>
        exact (preserves_bind (eput_preserves hst) fun _ ↦ preserves_pure none).at hinv'
      | some fd =>
        have hno : ¬ (e.attr &&& attrDirectory = 0 ∧ omode &&& Vm.oTrunc ≠ 0) := by
          rintro ⟨hreg, htr⟩
          rw [hfile, hofile] at hslot
          rw [hattr] at hreg
          apply ht
          exact ⟨not_not.mp hbits, by rw [hmode]; rfl, htr, ⟨e', he', hreg⟩, hslot rfl⟩
        dsimp only
        rw [doIf, if_neg hno, ensures_bind, ensures_pure]
        exact (openFile_preserves hst p fd.1 fd.2 omode rw'.1 rw'.2 opened).at hinv'

/-- A call that does not truncate keeps what the routines below it keep. -/
theorem runUser_keeps [DecidableEq P] [DecidableEq F] [DecidableEq O] (hst : Stable i inv)
    (ftable : List F) {op : UserOp P O} {t : Users P F O} (hs : inv s.fs)
    (ht : ¬ Truncates i ftable s op) (h : UserStep i ftable s op t) : inv t.fs := by
  have hdrop : ∀ {α : Type} (x : Using P F O α), Ensures x s (fun _ t ↦ inv t.fs) →
      Ensures (do let _ ← x) s fun _ t ↦ inv t.fs := by
    intro α x hx
    rw [ensures_bind]
    exact hx.mono fun _ _ hu ↦ ensures_pure.mpr hu
  suffices hrun : Ensures (runUser i ftable op) s fun _ t ↦ inv t.fs from hrun.of_ok () t h
  cases op with
  | «open» p omode opened => exact hdrop _ (sysOpen_keeps hst ftable p omode opened hs ht)
  | write p fd mem addr n => exact hdrop _ ((sysWrite_preserves hst p fd mem addr n).at hs)
  | close p fd => exact (sysClose_preserves hst p fd).at hs
  | mmap p addr length prot flags fd offset start object =>
    exact hdrop _ ((sysMmap_preserves hst p addr length prot flags fd offset start object).at hs)
  | fault p n => exact hdrop _ ((mmapFileFault_preserves hst p n).at hs)
  | munmap p pages addr length =>
    exact hdrop _ ((sysMunmap_preserves hst p pages addr length).at hs)
  | next dp off => exact (preserves_onVolume fun s s' hs h ↦ hst.next s s' dp off hs h).at hs
  | reload k => exact (preserves_onVolume fun s s' hs h ↦ hst.reload s s' k hs h).at hs

end Open

/-! ### A read-only entry -/

/-- `ewrite` leaves a read-only entry alone. -/
theorem ewrite_readOnly {v : Volume} {e : Dirent} (h : e.attr &&& attrReadOnly ≠ 0) (x : Xfer)
    (off n : Nat) : ewrite v e x off n = .ok (v, e, -1) := by
  rw [ewrite, if_pos (Or.inr (Or.inr (Or.inr h)))]

/-- An entry with an update to come lies inside its directory. -/
def Pending (s : FsState) (chain : Nat → List Nat) (i : Nat) (e : Dirent) : Prop :=
  e.dirty = true → ∀ k dp, e.parent = some k → s.ent k = some dp →
    k ≠ i ∧ LiveDir s.vol (chain k) dp ∧ e.off % 32 = 0 ∧
      e.off < (chain k).length * s.vol.geom.bytsPerClus ∧
      slotOff e.off (derivedCount s.vol (chain k) e.off) <
        (chain k).length * s.vol.geom.bytsPerClus

/-- Entry `i` has the attributes, the size, the first cluster, the chain and the bytes of the entry
`e0` on `v0`, and was not removed. -/
structure KeptFile (i : Nat) (chain : Nat → List Nat) (v0 : Volume) (e0 : Dirent)
    (s : FsState) : Prop where
  sound : Integrity s chain
  geom : s.vol.geom = v0.geom
  same : SameBytes v0 s.vol (chain i)
  entry : ∃ e, s.ent i = some e ∧ e.attr = e0.attr ∧ e.firstClus = e0.firstClus ∧
    e.fileSize = e0.fileSize ∧ e.valid = 1 ∧ Pending s chain i e

namespace KeptFile

variable {i : Nat} {chain : Nat → List Nat} {v0 : Volume} {e0 : Dirent} {s s' : FsState}

private theorem set_self {k : Nat} {e : Dirent} (h : s.ent k = some e) :
    s.set s.vol k (some e) = s := by
  rw [FsState.set, ← h, update_eq_self]

-- A change of entry `k` alone that no directory on the way to the slot of `i` notices.
private theorem change {k : Nat} {e e' : Dirent} (h : KeptFile i chain v0 e0 s)
    (hk : s.ent k = some e) (hf : e'.firstClus = e.firstClus) (hz : e'.fileSize = e.fileSize)
    (ha : e'.attr = e.attr) (hv : e'.valid = e.valid) (hd : e'.dirty = e.dirty)
    (hp : e'.parent = e.parent) (ho : e'.off = e.off) (hc : OnChain e' (chain k)) :
    KeptFile i chain v0 e0 (s.set s.vol k (some e')) where
  sound := h.sound.setFields e' hk hf hz hc ha
  geom := h.geom
  same := h.same
  entry := by
    obtain ⟨e1, he1, ha1, hf1, hz1, hv1, hp1⟩ := h.entry
    have hlive : ∀ k' dp, (s.set s.vol k (some e')).ent k' = some dp →
        ∃ dp1, s.ent k' = some dp1 ∧
          (LiveDir s.vol (chain k') dp1 → LiveDir s.vol (chain k') dp) := by
      intro k' dp hdp
      by_cases hkk : k' = k
      · subst hkk
        simp only [FsState.set, update_self, Option.some.injEq] at hdp
        subst hdp
        refine ⟨e, hk, fun hl ↦ ⟨hl.chain, hl.nodup, hc, ?_, ?_, ?_⟩⟩
        · rw [hf]
          exact hl.firstClus
        · rw [ha]
          exact hl.isDir
        · rw [hv]
          exact hl.valid
      · simp only [FsState.set, update_of_ne hkk] at hdp
        exact ⟨dp, hdp, id⟩
    have hpend : ∀ e2 : Dirent, e2.dirty = e1.dirty → e2.parent = e1.parent → e2.off = e1.off →
        Pending (s.set s.vol k (some e')) chain i e2 := by
      intro e2 hd2 hp2 ho2 hdirty k' dp hpar hdp
      rw [hd2] at hdirty
      rw [hp2] at hpar
      obtain ⟨dp1, hdp1, hl⟩ := hlive k' dp hdp
      obtain ⟨hne, hlv, h32, hin, hslot⟩ := hp1 hdirty k' dp1 hpar hdp1
      rw [ho2]
      exact ⟨hne, hl hlv, h32, hin, hslot⟩
    by_cases hik : i = k
    · subst hik
      have heq : e = e1 := Option.some.inj (hk.symm.trans he1)
      subst heq
      exact ⟨e', update_self .., ha.trans ha1, hf.trans hf1, hz.trans hz1, hv.trans hv1,
        hpend e' hd hp ho⟩
    · exact ⟨e1, by rw [← he1]; exact update_of_ne hik _ _, ha1, hf1, hz1, hv1,
        hpend e1 rfl rfl rfl⟩

/-- An entry that only moved its cursor. -/
theorem cursor {k : Nat} {e e' : Dirent} (h : KeptFile i chain v0 e0 s) (hk : s.ent k = some e)
    (hs : SameEntry e e') (hc : OnChain e' (chain k)) :
    KeptFile i chain v0 e0 (s.set s.vol k (some e')) := by
  rw [SameEntry] at hs
  refine h.change hk ?_ ?_ ?_ ?_ ?_ ?_ ?_ hc <;> rw [hs]

/-- A count changes. -/
theorem addRef (h : KeptFile i chain v0 e0 s) (d : Int) :
    KeptFile i chain v0 e0 (s.addRef i d) := by
  obtain ⟨e, he, -⟩ := h.entry
  rw [FsState.addRef, he]
  have hc := (h.sound.entries i e he).onChain
  exact h.change he rfl rfl rfl rfl rfl rfl rfl ⟨hc.head, hc.cursor⟩

/-- `enext` keeps the file. -/
theorem next {k off : Nat} (h : KeptFile i chain v0 e0 s)
    (hs : stepFs s (.next k off) = .ok s') : KeptFile i chain v0 e0 s' := by
  simp only [stepFs] at hs
  split at hs
  · next dp hdp =>
    obtain ⟨r, hr, hs⟩ := bind_eq_ok hs
    simp only [pure, Except.pure, Except.ok.injEq] at hs
    subst hs
    have hx := enext_sought hr
    exact h.cursor hdp hx.entry
      (hx.onChain _ (h.sound.table.isChain k) (h.sound.entries k dp hdp).onChain)
  · cases hs
    exact h

/-- `reload_clus` keeps the file. -/
theorem reload {k : Nat} (h : KeptFile i chain v0 e0 s)
    (hs : stepFs s (.reload k) = .ok s') : KeptFile i chain v0 e0 s' := by
  simp only [stepFs] at hs
  split at hs
  · next e he =>
    cases hs
    have hc := (h.sound.entries k e he).onChain
    exact h.cursor he rfl ⟨hc.head, fun hf ↦ hc.getElem?_zero hf⟩
  · cases hs
    exact h

/-- The bytes of another chain when a slot of a directory is written. -/
theorem sameBytes_slot {k off : Nat} {bs : List UInt8} (h : KeptFile i chain v0 e0 s)
    (hk : k ≠ i) (h32 : off % 32 = 0) (hlen : bs.length = 32)
    (hin : off < (chain k).length * s.vol.geom.bytsPerClus) :
    SameBytes v0 (storeCard s.vol (dirAddr s.vol.geom (chain k) off) bs) (chain i) := by
  intro c hc x hx
  rw [← h.geom] at hx ⊢
  have hidx : off / s.vol.geom.bytsPerClus < (chain k).length :=
    Nat.div_lt_of_lt_mul (by rwa [Nat.mul_comm])
  have hget := List.getElem?_eq_getElem hidx
  have hmem := List.mem_of_getElem? hget
  have hne : c ≠ (chain k)[off / s.vol.geom.bytsPerClus] := by
    rintro rfl
    exact h.sound.table.forest.disjoint k i hk hmem hc
  have hfit := (slot_in_cluster s.vol.geom h32).1
  rw [← dirAddr_cursor hget, store_cluster bs (h.sound.table.forest.inDom k _ hmem)
    (h.sound.table.forest.inDom i c hc) (by omega) hx (Or.inl hne)]
  have hsame := h.same c hc x (by rwa [← h.geom])
  rwa [← h.geom] at hsame

/-- The last reference: a clean entry stays as it is, the slot of another one is written. -/
theorem put (h : KeptFile i chain v0 e0 s) (hs : stepFs s (.put i) = .ok s') :
    KeptFile i chain v0 e0 s' := by
  obtain ⟨e, he, ha, hf, hz, hv, hp⟩ := h.entry
  simp only [stepFs, he] at hs
  rw [if_neg (by omega)] at hs
  split at hs
  · next k dp hpar =>
    have hdp := bind_parent hpar
    have hparent : e.parent = some k := by
      simp only [Option.bind_eq_some_iff, Option.map_eq_some_iff, Prod.mk.injEq] at hpar
      obtain ⟨k', hk', dp', -, rfl, -⟩ := hpar
      exact hk'
    obtain ⟨⟨v1, dp1, e1⟩, hup, hs⟩ := bind_eq_ok hs
    simp only [pure, Except.pure, Except.ok.injEq] at hs
    subst hs
    cases hdirty : e.dirty with
    | false =>
      rw [eupdate, if_pos (Or.inl hdirty)] at hup
      cases hup
      rw [set_self hdp, set_self he]
      exact h
    | true =>
      obtain ⟨hne, hlive, h32, hin, hslot⟩ := hp hdirty k dp hparent hdp
      obtain ⟨dp2, hup2, -⟩ := eupdate_inside hlive hv hdirty h32 hin hslot
      have hx := (eupdate_sought hup).1
      rw [hup2] at hup
      simp only [Except.ok.injEq, Prod.mk.injEq] at hup
      obtain ⟨rfl, rfl, rfl⟩ := hup
      have hlen := length_sneUpdate (length_dirSlot s.vol (chain k)
        (slotOff e.off (derivedCount s.vol (chain k) e.off))) e.firstClus e.fileSize
      have hsame := h.sameBytes_slot hne (slotOff_mod h32 _) hlen hslot
      exact {
        sound := h.sound.sought_entry he hdp hx rfl rfl rfl rfl rfl
        geom := hx.geom.trans h.geom
        same := hsame
        entry := ⟨{ e with dirty := false }, update_self .., ha, hf, hz, hv,
          fun hd ↦ Bool.noConfusion hd⟩ }
  · cases hs
    exact h

/-- The routines for a read-only entry keep it. -/
theorem stable (hro : e0.attr &&& attrReadOnly ≠ 0) : Stable i (KeptFile i chain v0 e0) where
  addRef _ d h := h.addRef d
  put _ _ h hs := h.put hs
  next _ _ _ _ h hs := h.next hs
  reload _ _ _ h hs := h.reload hs
  write s e x off n v' e' r h he hw := by
    obtain ⟨e1, he1, ha, -⟩ := h.entry
    have heq : e = e1 := Option.some.inj (he.symm.trans he1)
    rw [← heq] at ha
    rw [ewrite_readOnly (by rw [ha]; exact hro)] at hw
    cases hw
    rw [set_self he]
    exact h
  read s e x off n v' e' r out h he hx hread := by
    have hs := eread_sought hread
    rw [eread_reads hx hread]
    exact h.cursor he hs.entry
      (hs.onChain _ (h.sound.table.isChain i) (h.sound.entries i e he).onChain)

/-- The contents are those of the entry at the start. -/
theorem contents_eq (h0 : KeptFile i chain s.vol e0 s) (h1 : s.ent i = some e0)
    (h : KeptFile i chain s.vol e0 s') :
    ∃ e, s'.ent i = some e ∧ contents s'.vol e = contents s.vol e0 ∧
      e.fileSize = e0.fileSize ∧ e.firstClus = e0.firstClus := by
  obtain ⟨e, he, -, hf, hz, -, -⟩ := h.entry
  have hcov := h0.sound.entries i e0 h1
  refine ⟨e, he, ?_, hz, hf⟩
  rw [contents, contents, chainOf_eq h.sound.table (h.sound.entries i e he).onChain,
    chainOf_eq h0.sound.table hcov.onChain, hz]
  apply List.map_congr_left
  intro k hk
  have hlt := Nat.lt_of_lt_of_le (List.mem_range.mp hk) hcov.size
  exact h.same.fileByte_eq h.geom (List.prefix_refl _) hlt

end KeptFile

/-- Entry `i` of a sound file system is the read-only entry `e`, which was not removed. -/
structure ReadOnlyFile (i : Nat) (e : Dirent) (s : FsState) : Prop where
  ent : s.ent i = some e
  readOnly : e.attr &&& attrReadOnly ≠ 0
  valid : e.valid = 1
  sound : ∃ chain, Integrity s chain ∧ Pending s chain i e

/-- In a run in which no `open` truncates, a read-only file keeps its contents, its size and its
first cluster. -/
theorem readOnly_unchanged [DecidableEq P] [DecidableEq F] [DecidableEq O] {i : Nat} {e : Dirent}
    (ftable : List F) {s t : Users P F O} {ops : List (UserOp P O)} (h : ReadOnlyFile i e s.fs)
    (hrun : Runs (fun s op t ↦ UserStep i ftable s op t ∧ ¬ Truncates i ftable s op) s ops t) :
    ∃ e', t.fs.ent i = some e' ∧ contents t.fs.vol e' = contents s.fs.vol e ∧
      e'.fileSize = e.fileSize ∧ e'.firstClus = e.firstClus := by
  obtain ⟨chain, hint, hpend⟩ := h.sound
  have h0 : KeptFile i chain s.fs.vol e s.fs :=
    ⟨hint, rfl, fun _ _ _ _ ↦ rfl, e, h.ent, rfl, rfl, rfl, h.valid, hpend⟩
  have hstable : Stable i (KeptFile i chain s.fs.vol e) := KeptFile.stable h.readOnly
  have hend : KeptFile i chain s.fs.vol e t.fs :=
    hrun.invariant (fun u ↦ KeptFile i chain s.fs.vol e u.fs)
      (fun _ _ _ hu hstep ↦ runUser_keeps hstable ftable hu hstep.2 hstep.1) h0
  exact h0.contents_eq h.ent hend

/-- The file of five bytes, read-only. -/
def readOnlyEntry : Dirent :=
  { readEntry with attr := attrReadOnly ||| attrArchive, parent := some 0, off := 64 }

/-- One process with no open file, and one place in the file table. -/
def readOnlyUsers : Users Unit Unit Unit where
  fs := {
    vol := readVolume
    ent := fun i ↦ if i = 0 then some smallRoot else if i = 1 then some readOnlyEntry else none }
  file _ := ⟨0, .none, ⟨false, false, 0⟩⟩
  ofile _ _ := none
  obj _ := none
  vmas _ _ := none

private theorem readOnlyUsers_sound : ReadOnlyFile 1 readOnlyEntry readOnlyUsers.fs where
  ent := rfl
  readOnly := by decide
  valid := rfl
  sound := by
    refine ⟨readChains, ⟨readVolume_wf, ?_, ?_, ?_⟩, fun hd ↦ Bool.noConfusion hd⟩
    · intro i hi
      by_cases h0 : i = 0
      · subst h0
        cases hi
      · by_cases h1 : i = 1
        · subst h1
          cases hi
        · rw [readChains, if_neg h0, if_neg h1]
    · intro i e he
      by_cases h0 : i = 0
      · subst h0
        cases he
        exact ⟨⟨rfl, fun _ ↦ rfl⟩, by decide⟩
      · by_cases h1 : i = 1
        · subst h1
          cases he
          exact ⟨⟨rfl, fun _ ↦ rfl⟩, by decide⟩
        · simp only [readOnlyUsers, if_neg h0, if_neg h1, reduceCtorEq] at he
    · intro i e he _
      by_cases h0 : i = 0
      · subst h0
        cases he
        decide
      · by_cases h1 : i = 1
        · subst h1
          cases he
          decide
        · simp only [readOnlyUsers, if_neg h0, if_neg h1, reduceCtorEq] at he

/-- The call computed, as long as it does not ask for truncation. -/
def tryUser (s : Users Unit Unit Unit) (op : UserOp Unit Unit) : Option (Users Unit Unit Unit) :=
  match op with
  | .open p omode opened =>
    if omode &&& Vm.oTrunc ≠ 0 then none
    else (runUser 1 [()] (.open p omode opened) s).toOption.map Prod.snd
  | op => (runUser 1 [()] op s).toOption.map Prod.snd

private theorem step_of_toOption {op : UserOp Unit Unit} {s t : Users Unit Unit Unit}
    (h : (runUser 1 [()] op s).toOption.map Prod.snd = some t) : UserStep 1 [()] s op t := by
  rw [UserStep]
  cases hr : runUser 1 [()] op s with
  | error m =>
    rw [hr] at h
    cases h
  | ok r =>
    rw [hr] at h
    cases h
    rfl

private theorem nofile_pos : 0 < Vm.nofile := by decide

/-- Descriptor 0. -/
def firstFd : Fin Vm.nofile := ⟨0, nofile_pos⟩

/-- A process opens the file for reading and writing, writes in vain and closes it. -/
theorem readOnly_unchanged_write :
    ∃ t, Runs (fun s op t ↦ UserStep 1 [()] s op t ∧ ¬ Truncates 1 [()] s op) readOnlyUsers
        [.open () 2 true, .write () firstFd (fun _ ↦ some 1) 0 3, .close () firstFd] t ∧
      ∃ e', t.fs.ent 1 = some e' ∧ contents t.fs.vol e' = contents readVolume readOnlyEntry ∧
        e'.fileSize = 5 ∧ e'.firstClus = 3 := by
  have hstep : ∀ s op t, tryUser s op = some t →
      UserStep 1 [()] s op t ∧ ¬ Truncates 1 [()] s op := by
    intro s op t h
    cases op with
    | «open» p omode opened =>
      simp only [tryUser] at h
      split at h
      · cases h
      · next hno => exact ⟨step_of_toOption h, fun ht ↦ hno ht.2.2.1⟩
    | _ => exact ⟨step_of_toOption h, id⟩
  obtain ⟨t, hrun, -⟩ := exists_runs hstep readOnlyUsers
    [.open () 2 true, .write () firstFd (fun _ ↦ some 1) 0 3, .close () firstFd] (fun _ ↦ true)
    (by decide +kernel)
  exact ⟨t, hrun, readOnly_unchanged [()] readOnlyUsers_sound hrun⟩

/-- `O_TRUNC` with `O_RDONLY` empties the file: it has no size and no first cluster any more. -/
theorem not_readOnly_unchanged :
    ReadOnlyFile 1 readOnlyEntry readOnlyUsers.fs ∧
      ∃ t, Runs (UserStep 1 [()]) readOnlyUsers [.open () 0x400 true] t ∧
        ¬ ∃ e', t.fs.ent 1 = some e' ∧ contents t.fs.vol e' = contents readVolume readOnlyEntry ∧
          e'.fileSize = 5 ∧ e'.firstClus = 3 := by
  refine ⟨readOnlyUsers_sound, ?_⟩
  have hrun : (runUser 1 [()] (.open () 0x400 true) readOnlyUsers).toOption.any
      (fun r ↦ (r.2.fs.ent 1).all fun e ↦ e.fileSize = 0) = true := by decide +kernel
  cases hr : runUser 1 [()] (.open () 0x400 true) readOnlyUsers with
  | error m =>
    rw [hr] at hrun
    cases hrun
  | ok r =>
    rw [hr] at hrun
    refine ⟨r.2, .single hr, ?_⟩
    rintro ⟨e', he', -, hz, -⟩
    have hall : (r.2.fs.ent 1).all (fun e ↦ decide (e.fileSize = 0)) = true := hrun
    rw [he', Option.all_some, decide_eq_true_eq] at hall
    omega

end Xv6K210.Fs
