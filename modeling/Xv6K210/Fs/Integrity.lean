import Xv6K210.Fs.Chains

/-!
# Chain integrity along every run

Source `kernel/fs/fat32.c:225–378,494–716`. The state machine over the volume
and its live entries: each operation of the file system is one step, and the invariant
`Integrity` relates the allocation table to the entries and their cached cursors.
-/

namespace Xv6K210.Fs

open Xv6K210.Base Function

/-! ### Operations that only move a directory cursor -/

/-- `v'` and `dp'` are `v` and `dp` after reads and writes in the directory: the table is
unchanged and the cursor stays on its chain. -/
structure Sought (v : Volume) (dp : Dirent) (v' : Volume) (dp' : Dirent) : Prop where
  fat : v'.fat = v.fat
  geom : v'.geom = v.geom
  entry : SameEntry dp dp'
  onChain : ∀ l, IsChain v l → OnChain dp l → OnChain dp' l

/-- Doing nothing. -/
theorem Sought.refl (v : Volume) (dp : Dirent) : Sought v dp v dp := ⟨rfl, rfl, rfl, fun _ _ h ↦ h⟩

/-- A chain depends on the table and the geometry only. -/
theorem IsChain.congr {v v' : Volume} {l : List Nat} (h : IsChain v l) (hf : v'.fat = v.fat)
    (hg : v'.geom = v.geom) : IsChain v' l := by
  constructor
  · rw [hf]
    exact h.linked
  · rw [hg]
    exact h.inRange

/-- Directory accesses compose. -/
theorem Sought.trans {v v' v'' : Volume} {dp dp' dp'' : Dirent} (h : Sought v dp v' dp')
    (h' : Sought v' dp' v'' dp'') : Sought v dp v'' dp'' where
  fat := h'.fat.trans h.fat
  geom := h'.geom.trans h.geom
  entry := h.entry.trans h'.entry
  onChain l hl ho := h'.onChain l (hl.congr h.fat h.geom) (h.onChain l hl ho)

private theorem relocForward_seek : ∀ (k : Nat) {v v' : Volume} {e e' : Dirent} {b : Bool},
    relocForward false k v e = .ok (v', e', b) → v' = v ∧ SameEntry e e'
  | 0, v, v', e, e', b, h => by
    simp only [relocForward, Except.ok.injEq, Prod.mk.injEq] at h
    obtain ⟨rfl, rfl, _⟩ := h
    exact ⟨rfl, rfl⟩
  | k + 1, v, v', e, e', b, h => by
    rw [relocForward] at h
    split at h
    · simp only [Bool.false_eq_true, if_false, Except.ok.injEq, Prod.mk.injEq] at h
      obtain ⟨rfl, rfl, _⟩ := h
      exact ⟨rfl, rfl⟩
    · obtain ⟨hv, hs⟩ := relocForward_seek k h
      exact ⟨hv, SameEntry.seek _ _ hs⟩

private theorem relocBack_seek {v : Volume} : ∀ (k : Nat) {e e' : Dirent},
    relocBack v k e = .ok e' → SameEntry e e'
  | 0, e, e', h => by
    simp only [relocBack, Except.ok.injEq] at h
    rw [← h]
    rfl
  | k + 1, e, e', h => by
    rw [relocBack] at h
    split at h
    · cases h
    · exact SameEntry.seek _ _ (relocBack_seek k h)

/-- `reloc_clus` without allocation moves the cursor and changes nothing else. -/
theorem relocClus_seek {v v' : Volume} {e e' : Dirent} {off : Nat} {r : Int}
    (h : relocClus v e off false = .ok (v', e', r)) : v' = v ∧ SameEntry e e' := by
  unfold relocClus at h
  dsimp only at h
  split at h
  · cases h
  · next hf =>
    simp only [Except.ok.injEq, Prod.mk.injEq] at h
    obtain ⟨rfl, rfl, _⟩ := h
    exact relocForward_seek _ hf
  · next v1 e1 hf =>
    obtain ⟨hv, hs⟩ := relocForward_seek _ hf
    split at h
    · split at h
      · cases h
      · next hb =>
        simp only [Except.ok.injEq, Prod.mk.injEq] at h
        obtain ⟨rfl, rfl, _⟩ := h
        refine ⟨hv, hs.trans ?_⟩
        exact SameEntry.seek _ _ (relocBack_seek _ hb)
    · simp only [Except.ok.injEq, Prod.mk.injEq] at h
      obtain ⟨rfl, rfl, _⟩ := h
      exact ⟨hv, hs⟩

/-- `reloc_clus` without allocation leaves the cursor on its chain. -/
theorem relocClus_sought {v v' : Volume} {e e' : Dirent} {off : Nat} {r : Int}
    (h : relocClus v e off false = .ok (v', e', r)) : Sought v e v' e' := by
  obtain ⟨hv, hs⟩ := relocClus_seek h
  refine ⟨by rw [hv], by rw [hv], hs, fun l hl ho ↦ ?_⟩
  by_cases hf : e.firstClus = 0
  · have hf' : e'.firstClus = e.firstClus := by rw [hs]
    constructor
    · rw [hf']
      exact ho.head
    · intro hne
      exact absurd (hf'.trans hf) hne
  · by_cases hlen : off / v.geom.bytsPerClus < l.length
    · have hc : l[off / v.geom.bytsPerClus]? = some (l[off / v.geom.bytsPerClus]) :=
        List.getElem?_eq_getElem hlen
      rw [relocClus_inside hl ho hf false hc] at h
      simp only [Except.ok.injEq, Prod.mk.injEq] at h
      rw [← h.2.1]
      exact ho.move hc
    · rw [relocClus_past hl ho hf (by omega)] at h
      simp only [Except.ok.injEq, Prod.mk.injEq] at h
      rw [← h.2.1]
      exact ho.move (ho.getElem?_zero hf)

private theorem writeClus_sought {v v' : Volume} {dp : Dirent} {c : Nat} {off2 : Int}
    {bs : List UInt8} (h : writeClus v c off2 bs = .ok v') : Sought v dp v' dp := by
  unfold writeClus at h
  split at h
  · cases h
  · next hx =>
    simp only [Except.ok.injEq] at h
    subst h
    have hk := rwClus_keeps hx
    exact ⟨hk.1, hk.2, rfl, fun _ _ ho ↦ ho⟩

/-- `eupdate` keeps the table; the entry is at most no longer dirty. -/
theorem eupdate_sought {v v' : Volume} {dp dp' e e' : Dirent}
    (h : eupdate v dp e = .ok (v', dp', e')) :
    Sought v dp v' dp' ∧ e' = { e with dirty := e'.dirty } := by
  unfold eupdate at h
  split at h
  · simp only [Except.ok.injEq, Prod.mk.injEq] at h
    obtain ⟨rfl, rfl, rfl⟩ := h
    exact ⟨Sought.refl v dp, rfl⟩
  · obtain ⟨⟨v1, dp1, off1⟩, h1, h⟩ := bind_eq_ok h
    obtain ⟨b, _, h⟩ := bind_eq_ok h
    obtain ⟨⟨v2, dp2, off2⟩, h2, h⟩ := bind_eq_ok h
    obtain ⟨de, _, h⟩ := bind_eq_ok h
    obtain ⟨v3, h3, h⟩ := bind_eq_ok h
    simp only [pure, Except.pure, Except.ok.injEq, Prod.mk.injEq] at h
    obtain ⟨rfl, rfl, rfl⟩ := h
    exact ⟨(relocClus_sought h1).trans ((relocClus_sought h2).trans (writeClus_sought h3)), rfl⟩

private theorem eremoveLoop_sought : ∀ (k : Nat) {v v' : Volume} {dp dp' : Dirent} {off : Nat}
    {off2 : Int}, eremoveLoop k v dp off off2 = .ok (v', dp') → Sought v dp v' dp'
  | 0, v, v', dp, dp', off, off2, h => by
    simp only [eremoveLoop, Except.ok.injEq, Prod.mk.injEq] at h
    obtain ⟨rfl, rfl⟩ := h
    exact Sought.refl v dp
  | k + 1, v, v', dp, dp', off, off2, h => by
    rw [eremoveLoop] at h
    obtain ⟨v1, h1, h⟩ := bind_eq_ok h
    obtain ⟨⟨v2, dp2, off3⟩, h2, h⟩ := bind_eq_ok h
    exact (writeClus_sought h1).trans ((relocClus_sought h2).trans (eremoveLoop_sought k h))

/-- `eremove` keeps the table; the entry at most loses its validity. -/
theorem eremove_sought {v v' : Volume} {dp dp' e e' : Dirent}
    (h : eremove v dp e = .ok (v', dp', e')) :
    Sought v dp v' dp' ∧ e' = { e with valid := e'.valid } := by
  unfold eremove at h
  split at h
  · simp only [Except.ok.injEq, Prod.mk.injEq] at h
    obtain ⟨rfl, rfl, rfl⟩ := h
    exact ⟨Sought.refl v dp, rfl⟩
  · obtain ⟨⟨v1, dp1, off1⟩, h1, h⟩ := bind_eq_ok h
    obtain ⟨b, _, h⟩ := bind_eq_ok h
    obtain ⟨⟨v2, dp2⟩, h2, h⟩ := bind_eq_ok h
    simp only [pure, Except.pure, Except.ok.injEq, Prod.mk.injEq] at h
    obtain ⟨rfl, rfl, rfl⟩ := h
    exact ⟨(relocClus_sought h1).trans (eremoveLoop_sought _ h2), rfl⟩

private theorem ereadLoop_sought (x : Xfer) (n : Nat) : ∀ (fuel : Nat) {v v' : Volume}
    {e e' : Dirent} {off tot tot' : Nat} {out out' : List UInt8},
    ereadLoop x n fuel v e off tot out = .ok (v', e', tot', out') → Sought v e v' e'
  | 0, v, v', e, e', off, tot, tot', out, out', h => by
    simp only [ereadLoop, Except.ok.injEq, Prod.mk.injEq] at h
    obtain ⟨rfl, rfl, _⟩ := h
    exact Sought.refl v e
  | fuel + 1, v, v', e, e', off, tot, tot', out, out', h => by
    rw [ereadLoop] at h
    split at h
    · split at h
      · cases h
      · next v1 e1 _ hr =>
        dsimp only at h
        split at h
        · cases h
        · next v2 q bs hx =>
          have hk := rwClus_keeps hx
          have hx' : Sought v1 e1 v2 e1 := ⟨hk.1, hk.2, rfl, fun _ _ ho ↦ ho⟩
          have hs := (relocClus_sought hr).trans hx'
          split at h
          · simp only [Except.ok.injEq, Prod.mk.injEq] at h
            obtain ⟨rfl, rfl, _⟩ := h
            exact hs
          · exact hs.trans (ereadLoop_sought x n fuel h)
    · simp only [Except.ok.injEq, Prod.mk.injEq] at h
      obtain ⟨rfl, rfl, _⟩ := h
      exact Sought.refl v e

/-- `eread` keeps the table and the entry up to its cursor. -/
theorem eread_sought {v v' : Volume} {e e' : Dirent} {x : Xfer} {off n : Nat} {r : Int}
    {out : List UInt8} (h : eread v e x off n = .ok (v', e', r, out)) : Sought v e v' e' := by
  unfold eread at h
  split at h
  · simp only [Except.ok.injEq, Prod.mk.injEq] at h
    obtain ⟨rfl, rfl, _⟩ := h
    exact Sought.refl v e
  · dsimp only at h
    split at h
    · cases h
    · next hl =>
      simp only [Except.ok.injEq, Prod.mk.injEq] at h
      obtain ⟨rfl, rfl, _⟩ := h
      exact ereadLoop_sought x _ _ hl

/-- One slot read by `enext` moves the cursor only. -/
theorem enextSlot_sought {v : Volume} {dp dp' : Dirent} {off : Nat} {de : List UInt8}
    (h : enextSlot v dp off = .ok (dp', de)) : Sought v dp v dp' := by
  unfold enextSlot at h
  split at h
  · cases h
  · next v1 dp1 off2 hr =>
    have hs := relocClus_sought hr
    obtain ⟨rfl, _⟩ := relocClus_seek hr
    split at h
    · simp only [Except.ok.injEq, Prod.mk.injEq] at h
      rwa [← h.1]
    · split at h
      · cases h
      · simp only [Except.ok.injEq, Prod.mk.injEq] at h
        rwa [← h.1]

/-- A round of `enext` reads a slot; it goes on behind the slot, or `enext` returns. -/
theorem enextLoop_cases {v : Volume} {ep : Dirent} {fuel : Nat} {dp : Dirent} {buf : ByteMem}
    {off cnt : Nat} {live : Bool} {count : Option Nat} {r : EnextOut}
    (h : enextLoop v ep (fuel + 1) dp buf off cnt live count = .ok r) :
    ∃ dp' de, enextSlot v dp off = .ok (dp', de) ∧
      ((∃ buf' cnt' live' count',
          (de.getD 0 0 = emptyEntry ∧ cnt' = cnt + 1 ∧ live' = live ∨
            de.getD 0 0 ≠ emptyEntry ∧ cnt = 0 ∧ cnt' = 0) ∧
          enextLoop v ep fuel dp' buf' ((off + 32) % 2 ^ 32) cnt' live' count' = .ok r) ∨
        r.dp = dp' ∧ (r.ret = -1 ∨ r.ret = 0 ∧ cnt ≠ 0 ∧ live = true ∨
          r.ret = 1 ∧ cnt = 0 ∧ r.ep.curClus = r.ep.firstClus)) := by
  rw [enextLoop] at h
  cases hslot : enextSlot v dp off with
  | error p =>
    rw [hslot] at h
    cases h
  | ok a =>
    obtain ⟨dp', de⟩ := a
    rw [hslot] at h
    refine ⟨dp', de, rfl, ?_⟩
    dsimp only at h
    by_cases hend : de.length ≠ 32 ∨ de.getD 0 0 = endOfEntry
    · rw [if_pos hend] at h
      cases h
      exact .inr ⟨rfl, .inl rfl⟩
    rw [if_neg hend] at h
    by_cases hempty : de.getD 0 0 = emptyEntry
    · rw [if_pos hempty] at h
      exact .inl ⟨_, _, _, _, .inl ⟨hempty, rfl, rfl⟩, h⟩
    rw [if_neg hempty] at h
    by_cases hcnt : cnt ≠ 0
    · rw [if_pos hcnt] at h
      cases live with
      | true =>
        cases h
        exact .inr ⟨rfl, .inr (.inl ⟨rfl, hcnt, rfl⟩)⟩
      | false => cases h
    have hzero : cnt = 0 := not_not.mp hcnt
    rw [if_neg hcnt] at h
    by_cases hlong : slotAttr de = attrLongName
    · rw [if_pos hlong] at h
      split at h
      · cases h
      · split at h
        · cases h
        · exact .inl ⟨_, _, _, _, .inr ⟨hempty, hzero, hzero⟩, h⟩
    · rw [if_neg hlong] at h
      cases h
      exact .inr ⟨rfl, .inr (.inr ⟨rfl, hzero, rfl⟩)⟩

private theorem enextLoop_sought {v : Volume} {ep : Dirent} : ∀ (fuel : Nat) {dp : Dirent}
    {buf : ByteMem} {off cnt : Nat} {live : Bool} {count : Option Nat} {r : EnextOut},
    enextLoop v ep fuel dp buf off cnt live count = .ok r → Sought v dp v r.dp
  | 0, dp, buf, off, cnt, live, count, r, h => by cases h
  | fuel + 1, dp, buf, off, cnt, live, count, r, h => by
    obtain ⟨dp1, de, hslot, ⟨_, _, _, _, _, hloop⟩ | ⟨rfl, _⟩⟩ := enextLoop_cases h
    · exact (enextSlot_sought hslot).trans (enextLoop_sought fuel hloop)
    · exact enextSlot_sought hslot

/-- `enext` moves the cursor of the directory only. -/
theorem enext_sought {v : Volume} {dp ep : Dirent} {off : Nat} {count : Option Nat}
    {r : EnextOut} (h : enext v dp ep off count = .ok r) : Sought v dp v r.dp := by
  unfold enext at h
  split at h
  · cases h
  · split at h
    · cases h
    · split at h
      · cases h
      · split at h
        · cases h
          exact Sought.refl v dp
        · exact enextLoop_sought _ h

/-! ### The state machine -/

/-- The volume and its live entries, each with its cached fields. Removed entries that are
still referenced are live, with `valid = -1`. -/
structure FsState where
  vol : Volume
  ent : Nat → Option Dirent

/-- The operations on entries, as the system calls use them. -/
inductive Op where
  /-- `ealloc` of entry `i` in the directory `dp`, its slots at offset `off` -/
  | create (i dp : Nat) (name : List UInt8) (kind : NodeKind) (off : Nat)
  /-- `ewrite`, from a source buffer that may fault -/
  | write (i : Nat) (src : Nat → Option UInt8) (off n : Nat)
  /-- `eread`, to a destination buffer that may fault -/
  | read (i : Nat) (dst : Nat → Bool) (off n : Nat)
  /-- `reloc_clus` with allocation, on a directory -/
  | grow (dp off : Nat)
  /-- `enext`, as the lookups use it -/
  | next (dp off : Nat)
  /-- `etrunc` of an open file -/
  | trunc (i : Nat)
  /-- `eremove` -/
  | remove (i : Nat)
  /-- `eput` of the last reference -/
  | put (i : Nat)
  /-- the cache slot was reused and the entry is read again from its directory -/
  | reload (i : Nat)

/-- Replace the fields of one entry. -/
def FsState.set (s : FsState) (v : Volume) (i : Nat) (e : Option Dirent) : FsState :=
  ⟨v, update s.ent i e⟩

/-- One operation. On entries that do not exist or are not of the kind that the system
calls check for, nothing happens. -/
def stepFs (s : FsState) : Op → Except Panic FsState
  | .create i k name kind off =>
    match s.ent i, s.ent k with
    | none, some dp => do
      let (v, dp, ep) ← eallocNew s.vol k dp name kind.attr off
      return (s.set v k (some dp)).set v i (some ep)
    | _, _ => .ok s
  | .write i src off n =>
    match s.ent i with
    | some e => do
      let (v, e, _) ← ewrite s.vol e (.write src) off n
      return s.set v i (some e)
    | none => .ok s
  | .read i dst off n =>
    match s.ent i with
    | some e => do
      let (v, e, _) ← eread s.vol e (.read dst) off n
      return s.set v i (some e)
    | none => .ok s
  | .grow k off =>
    match s.ent k with
    | some dp =>
      if dp.attr &&& attrDirectory = 0 then .ok s
      else do
        let (v, dp, _) ← relocClus s.vol dp off true
        return s.set v k (some dp)
    | none => .ok s
  | .next k off =>
    match s.ent k with
    | some dp => do
      let r ← enext s.vol dp {} off none
      return s.set s.vol k (some r.dp)
    | none => .ok s
  | .trunc i =>
    match s.ent i with
    | some e =>
      if e.attr &&& attrDirectory = 0 then
        .ok (s.set (etrunc s.vol e).1 i (some (etrunc s.vol e).2))
      else .ok s
    | none => .ok s
  | .remove i =>
    match s.ent i with
    | some e =>
      match e.parent.bind fun k ↦ (s.ent k).map fun dp ↦ (k, dp) with
      | some (k, dp) => do
        let (v, dp, e) ← eremove s.vol dp e
        return (s.set v k (some dp)).set v i (some e)
      | none => .ok s
    | none => .ok s
  | .put i =>
    match s.ent i with
    | some e =>
      if e.valid = -1 then .ok (s.set (etrunc s.vol e).1 i none)
      else
        match e.parent.bind fun k ↦ (s.ent k).map fun dp ↦ (k, dp) with
        | some (k, dp) => do
          let (v, dp, e) ← eupdate s.vol dp e
          return (s.set v k (some dp)).set v i (some e)
        | none => .ok s
    | none => .ok s
  | .reload i =>
    match s.ent i with
    | some e => .ok (s.set s.vol i (some { e with curClus := e.firstClus, clusCnt := 0 }))
    | none => .ok s

/-- The operation does not create a device node. -/
def Op.NotDevice : Op → Prop
  | .create _ _ _ kind _ => kind ≠ .device
  | _ => True

/-- A step that returned, with every cluster it took a data cluster. -/
def FsStep (s : FsState) (op : Op) (s' : FsState) : Prop :=
  stepFs s op = .ok s' ∧ FreshInRange s.vol s'.vol ∧ op.NotDevice

/-- The invariant: `chain i` is the chain of entry `i`. -/
structure Integrity (s : FsState) (chain : Nat → List Nat) : Prop where
  table : FatWf s.vol chain
  absent : ∀ i, s.ent i = none → chain i = []
  entries : ∀ i e, s.ent i = some e → Covered s.vol.geom e (chain i)
  dirs : ∀ i e, s.ent i = some e → e.attr &&& attrDirectory ≠ 0 → e.firstClus ≠ 0

/-! ### Every step keeps the invariant -/

private theorem update_cases {α : Type} {f : Nat → Option α} {i j : Nat} {x y : Option α}
    (h : update f i x j = y) : (j = i ∧ x = y) ∨ (j ≠ i ∧ f j = y) := by
  by_cases hj : j = i
  · subst hj
    rw [update_self] at h
    exact .inl ⟨rfl, h⟩
  · rw [update_of_ne hj] at h
    exact .inr ⟨hj, h⟩

/-- One entry and its chain are replaced. -/
theorem Integrity.set {s : FsState} {chain : Nat → List Nat} (h : Integrity s chain)
    {v : Volume} {i : Nat} {e : Option Dirent} {l : List Nat}
    (hw : FatWf v (update chain i l)) (hg : v.geom = s.vol.geom)
    (hnone : e = none → l = [])
    (hsome : ∀ e', e = some e' → Covered v.geom e' l ∧
      (e'.attr &&& attrDirectory ≠ 0 → e'.firstClus ≠ 0)) :
    Integrity (s.set v i e) (update chain i l) := by
  refine ⟨hw, fun j hj ↦ ?_, fun j e' hj ↦ ?_, fun j e' hj ↦ ?_⟩
  · rcases update_cases hj with ⟨rfl, he⟩ | ⟨hne, he⟩
    · rw [update_self]
      exact hnone he
    · rw [update_of_ne hne]
      exact h.absent j he
  · rcases update_cases hj with ⟨rfl, he⟩ | ⟨hne, he⟩
    · rw [update_self]
      exact (hsome e' he).1
    · rw [update_of_ne hne]
      show Covered v.geom e' (chain j)
      rw [hg]
      exact h.entries j e' he
  · rcases update_cases hj with ⟨rfl, he⟩ | ⟨hne, he⟩
    · exact (hsome e' he).2
    · exact h.dirs j e' he

/-- The directory cursor moved, and nothing in the table. -/
theorem Integrity.sought {s : FsState} {chain : Nat → List Nat} (h : Integrity s chain)
    {v : Volume} {i : Nat} {e e' : Dirent} (hi : s.ent i = some e) (hs : Sought s.vol e v e') :
    Integrity (s.set v i (some e')) chain := by
  have hw : FatWf v (update chain i (chain i)) := by
    rw [update_eq_self]
    constructor
    · rw [hs.fat, hs.geom]
      exact h.table.forest
    · rw [hs.fat]
      exact h.table.reserved
  have hc := h.entries i e hi
  have := h.set (e := some e') hw hs.geom (fun hn ↦ by cases hn) (fun e'' he ↦ by
    cases he
    refine ⟨⟨hs.onChain _ (h.table.isChain i) hc.onChain, ?_⟩, ?_⟩
    · rw [hs.geom, hs.entry]
      exact hc.size
    · rw [hs.entry]
      exact h.dirs i e hi)
  rwa [update_eq_self] at this

/-- The chain of a directory grew. -/
theorem Integrity.extended {s : FsState} {chain : Nat → List Nat} (h : Integrity s chain)
    {v : Volume} {i : Nat} {e e' : Dirent} {l : List Nat} (hi : s.ent i = some e)
    (hx : Extended s.vol chain i e v e' l) :
    Integrity (s.set v i (some e')) (update chain i l) := by
  refine h.set hx.wf hx.geom (fun hn ↦ by cases hn) (fun e'' he ↦ ?_)
  cases he
  have hc := h.entries i e hi
  refine ⟨⟨hx.onChain, ?_⟩, ?_⟩
  · rw [hx.geom, hx.entry]
    exact hc.size.trans (Nat.mul_le_mul_right _ hx.grown)
  · rw [hx.entry]
    exact h.dirs i e hi

/-- Fields that the chain does not depend on changed. -/
theorem Integrity.setFields {s : FsState} {chain : Nat → List Nat} (h : Integrity s chain)
    {i : Nat} {e : Dirent} (e' : Dirent) (hi : s.ent i = some e) (hf : e'.firstClus = e.firstClus)
    (hz : e'.fileSize = e.fileSize) (hc : OnChain e' (chain i)) (ha : e'.attr = e.attr) :
    Integrity (s.set s.vol i (some e')) chain := by
  have := h.set (v := s.vol) (i := i) (e := some e') (l := chain i)
    (by rw [update_eq_self]; exact h.table) rfl (fun hn ↦ by cases hn) (fun e'' he ↦ by
      cases he
      refine ⟨⟨hc, ?_⟩, ?_⟩
      · rw [hz]
        exact (h.entries i e hi).size
      · rw [hf, ha]
        exact h.dirs i e hi)
  rwa [update_eq_self] at this

variable {s s' : FsState} {chain : Nat → List Nat}

private theorem stepFs_write (h : Integrity s chain) {i off n : Nat} {src : Nat → Option UInt8}
    (hs : stepFs s (.write i src off n) = .ok s') (hin : FreshInRange s.vol s'.vol) :
    ∃ chain', Integrity s' chain' := by
  simp only [stepFs] at hs
  split at hs
  · next e he =>
    obtain ⟨⟨v, e', r⟩, h1, hs⟩ := bind_eq_ok hs
    cases hs
    obtain ⟨l, hw, hc, hg, ha, hf⟩ := ewrite_covered h.table (h.entries i e he) h1 hin
    refine ⟨_, h.set hw hg (fun hn ↦ by cases hn) fun e'' hx ↦ ?_⟩
    cases hx
    refine ⟨hc, fun hd ↦ hf (h.dirs i e he ?_)⟩
    rwa [ha] at hd
  · cases hs
    exact ⟨chain, h⟩

private theorem stepFs_read (h : Integrity s chain) {i off n : Nat} {dst : Nat → Bool}
    (hs : stepFs s (.read i dst off n) = .ok s') : ∃ chain', Integrity s' chain' := by
  simp only [stepFs] at hs
  split at hs
  · next e he =>
    obtain ⟨⟨v, e', r, out⟩, h1, hs⟩ := bind_eq_ok hs
    cases hs
    exact ⟨chain, h.sought he (eread_sought h1)⟩
  · cases hs
    exact ⟨chain, h⟩

private theorem stepFs_grow (h : Integrity s chain) {k off : Nat}
    (hs : stepFs s (.grow k off) = .ok s') (hin : FreshInRange s.vol s'.vol) :
    ∃ chain', Integrity s' chain' := by
  simp only [stepFs] at hs
  split at hs
  · next dp hdp =>
    split at hs
    · cases hs
      exact ⟨chain, h⟩
    · next hdir =>
      obtain ⟨⟨v, dp', r⟩, h1, hs⟩ := bind_eq_ok hs
      cases hs
      obtain ⟨l, hx, _⟩ := relocClus_extended h.table (h.entries k dp hdp).onChain
        (h.dirs k dp hdp hdir) h1 hin
      exact ⟨_, h.extended hdp hx⟩
  · cases hs
    exact ⟨chain, h⟩

private theorem stepFs_next (h : Integrity s chain) {k off : Nat}
    (hs : stepFs s (.next k off) = .ok s') : ∃ chain', Integrity s' chain' := by
  simp only [stepFs] at hs
  split at hs
  · next dp hdp =>
    obtain ⟨r, h1, hs⟩ := bind_eq_ok hs
    cases hs
    exact ⟨chain, h.sought hdp (enext_sought h1)⟩
  · cases hs
    exact ⟨chain, h⟩

private theorem etrunc_covered (g : Geom) (v : Volume) (e : Dirent) :
    Covered g (etrunc v e).2 [] := by
  refine ⟨⟨rfl, fun hf ↦ absurd rfl hf⟩, ?_⟩
  exact Nat.zero_le _

private theorem stepFs_trunc (h : Integrity s chain) {i : Nat}
    (hs : stepFs s (.trunc i) = .ok s') : ∃ chain', Integrity s' chain' := by
  simp only [stepFs] at hs
  split at hs
  · next e he =>
    split at hs
    · next hdir =>
      cases hs
      obtain ⟨hg, _, _, hw⟩ := etrunc_wf h.table (h.entries i e he).onChain
      refine ⟨_, h.set hw hg (fun hn ↦ by cases hn) fun e' hx ↦ ?_⟩
      cases hx
      exact ⟨etrunc_covered _ _ _, fun hd ↦ absurd hdir hd⟩
    · cases hs
      exact ⟨chain, h⟩
  · cases hs
    exact ⟨chain, h⟩

-- An entry and its directory are replaced after accesses to the directory only.
/-- An entry changes in fields that do not matter to its chain, while its directory is read or
written in place. -/
theorem Integrity.sought_entry (h : Integrity s chain) {i k : Nat} {e e' dp dp' : Dirent}
    {v : Volume} (he : s.ent i = some e) (hdp : s.ent k = some dp)
    (hx : Sought s.vol dp v dp') (hf : e'.firstClus = e.firstClus)
    (hz : e'.fileSize = e.fileSize) (hcur : e'.curClus = e.curClus)
    (hcnt : e'.clusCnt = e.clusCnt) (ha : e'.attr = e.attr) :
    Integrity ((s.set v k (some dp')).set v i (some e')) chain := by
  have h1 := h.sought hdp hx
  have hon : OnChain e' (chain i) := by
    have hc := (h.entries i e he).onChain
    constructor
    · rw [hf]
      exact hc.head
    · rw [hf, hcnt, hcur]
      exact hc.cursor
  by_cases hik : i = k
  · subst hik
    have hed : e = dp := Option.some.inj (he.symm.trans hdp)
    subst hed
    have hi : (s.set v i (some dp')).ent i = some dp' := update_self ..
    refine h1.setFields _ hi ?_ ?_ hon ?_
    · rw [hf, hx.entry]
    · rw [hz, hx.entry]
    · rw [ha, hx.entry]
  · have hi : (s.set v k (some dp')).ent i = some e := by
      rw [← he]
      exact update_of_ne hik _ _
    exact h1.setFields _ hi hf hz hon ha

/-- The parent of an entry, when it is there. -/
theorem bind_parent {e : Dirent} {k : Nat} {dp : Dirent}
    (h : (e.parent.bind fun k ↦ (s.ent k).map fun dp ↦ (k, dp)) = some (k, dp)) :
    s.ent k = some dp := by
  rw [Option.bind_eq_some_iff] at h
  obtain ⟨j, _, hj⟩ := h
  rw [Option.map_eq_some_iff] at hj
  obtain ⟨d, hd, hp⟩ := hj
  cases hp
  exact hd

private theorem stepFs_remove (h : Integrity s chain) {i : Nat}
    (hs : stepFs s (.remove i) = .ok s') : ∃ chain', Integrity s' chain' := by
  simp only [stepFs] at hs
  split at hs
  · next e he =>
    split at hs
    · next k dp hp =>
      obtain ⟨⟨v, dp', e'⟩, h1, hs⟩ := bind_eq_ok hs
      cases hs
      obtain ⟨hx, heq⟩ := eremove_sought h1
      exact ⟨chain, h.sought_entry he (bind_parent hp) hx (by rw [heq]) (by rw [heq])
        (by rw [heq]) (by rw [heq]) (by rw [heq])⟩
    · cases hs
      exact ⟨chain, h⟩
  · cases hs
    exact ⟨chain, h⟩

private theorem stepFs_put (h : Integrity s chain) {i : Nat}
    (hs : stepFs s (.put i) = .ok s') : ∃ chain', Integrity s' chain' := by
  simp only [stepFs] at hs
  split at hs
  · next e he =>
    split at hs
    · cases hs
      obtain ⟨hg, _, _, hw⟩ := etrunc_wf h.table (h.entries i e he).onChain
      exact ⟨_, h.set hw hg (fun _ ↦ rfl) fun e' hx ↦ by cases hx⟩
    · split at hs
      · next k dp hp =>
        obtain ⟨⟨v, dp', e'⟩, h1, hs⟩ := bind_eq_ok hs
        cases hs
        obtain ⟨hx, heq⟩ := eupdate_sought h1
        exact ⟨chain, h.sought_entry he (bind_parent hp) hx (by rw [heq]) (by rw [heq])
          (by rw [heq]) (by rw [heq]) (by rw [heq])⟩
      · cases hs
        exact ⟨chain, h⟩
  · cases hs
    exact ⟨chain, h⟩

private theorem stepFs_reload (h : Integrity s chain) {i : Nat}
    (hs : stepFs s (.reload i) = .ok s') : ∃ chain', Integrity s' chain' := by
  simp only [stepFs] at hs
  split at hs
  · next e he =>
    cases hs
    have hc := (h.entries i e he).onChain
    exact ⟨chain, h.setFields _ he rfl rfl ⟨hc.head, fun hf ↦ hc.getElem?_zero hf⟩ rfl⟩
  · cases hs
    exact ⟨chain, h⟩

-- A new entry, and then its slots in the directory.
private theorem Integrity.create (h : Integrity s chain) {i k off : Nat} {dp dp' ep ep' : Dirent}
    {v v' : Volume} {l : List Nat} (hi : s.ent i = none) (hdp : s.ent k = some dp)
    (hw : FatWf v (update chain i l)) (hg : v.geom = s.vol.geom)
    (hep : Covered v.geom ep' l) (hdir : ep'.attr &&& attrDirectory ≠ 0 → ep'.firstClus ≠ 0)
    (hmake : emake v { dp with ref := dp.ref + 1 } ep off = .ok (v', dp'))
    (hin : FreshInRange v v') :
    ∃ chain', Integrity ((s.set v' k (some dp')).set v' i (some ep')) chain' := by
  have hik : k ≠ i := by
    rintro rfl
    rw [hi] at hdp
    cases hdp
  have hdirs : dp.firstClus ≠ 0 := by
    apply h.dirs k dp hdp
    intro hz
    simp only [emake, hz, if_true] at hmake
    cases hmake
  have h1 : Integrity (s.set v i (some ep')) (update chain i l) :=
    h.set hw hg (fun hn ↦ by cases hn) fun e hx ↦ by
      cases hx
      exact ⟨hep, hdir⟩
  have hk : (s.set v i (some ep')).ent k = some dp := by
    rw [← hdp]
    exact update_of_ne hik _ _
  have h2 := h1.setFields { dp with ref := dp.ref + 1 } hk rfl rfl
    (by
      have hc := (h1.entries k dp hk).onChain
      exact ⟨hc.head, hc.cursor⟩) rfl
  have hk2 : ((s.set v i (some ep')).set v k (some { dp with ref := dp.ref + 1 })).ent k =
      some { dp with ref := dp.ref + 1 } := update_self ..
  obtain ⟨m, hx⟩ := emake_extended h2.table (h2.entries k _ hk2).onChain hdirs hmake hin
  have h3 := h2.extended hk2 hx
  have heq : (((s.set v i (some ep')).set v k (some { dp with ref := dp.ref + 1 })).set v' k
      (some dp')) = (s.set v' k (some dp')).set v' i (some ep') := by
    simp only [FsState.set, update_idem]
    rw [update_comm hik]
  refine ⟨update (update chain i l) k m, ?_⟩
  rw [← heq]
  exact h3

private theorem attr_file (ro : Bool) :
    eallocAttr (NodeKind.file ro).attr &&& attrDirectory = 0 := by
  cases ro <;> decide

private theorem stepFs_create (h : Integrity s chain) {i k off : Nat} {name : List UInt8}
    {kind : NodeKind} (hdev : kind ≠ .device)
    (hs : stepFs s (.create i k name kind off) = .ok s') (hin : FreshInRange s.vol s'.vol) :
    ∃ chain', Integrity s' chain' := by
  simp only [stepFs] at hs
  split at hs
  · next dp hi hdp =>
    have hnil := h.absent i hi
    obtain ⟨⟨v', dp', ep'⟩, h1, hs⟩ := bind_eq_ok hs
    cases hs
    unfold eallocNew at h1
    dsimp only at h1
    split at h1
    · obtain ⟨⟨v1, c⟩, ha, h1⟩ := bind_eq_ok h1
      obtain ⟨⟨v2, ep2⟩, hm2, h1⟩ := bind_eq_ok h1
      obtain ⟨⟨v3, ep3⟩, hm3, h1⟩ := bind_eq_ok h1
      obtain ⟨⟨v4, dp4⟩, hm4, h1⟩ := bind_eq_ok h1
      cases h1
      dsimp only at hm2 hm3 hm4 hin
      have hl1 := allocClus_later ha
      have hl2 := emake_later hm2
      have hl3 := emake_later hm3
      have hl4 := emake_later hm4
      have h0 := h.table.reserved
      have hr : s.vol.geom.InRange c := by
        apply hin.left h0 hl1 (hl2.trans (hl3.trans hl4)) c (allocClus_fat ha).2.2
        rw [(allocClus_fat ha).2.1, update_self]
        simp
      have hc0 : c ≠ 0 := by
        have := hr.1
        omega
      have hin1 := hin.right h0 hl1
      have hw1 := h.table.start hnil ha hr
      obtain ⟨l2, hx2⟩ := emake_extended (i := i) hw1 (by
        rw [update_self]
        exact ⟨by simp [hc0], fun _ ↦ rfl⟩) hc0 hm2
        (hin1.left hw1.reserved hl2 (hl3.trans hl4))
      have hin2 := hin1.right hw1.reserved hl2
      have hf2 : ep2.firstClus ≠ 0 := by
        rw [hx2.entry]
        exact hc0
      obtain ⟨l3, hx3⟩ := emake_extended (i := i) hx2.wf
        (by rw [update_self]; exact hx2.onChain) hf2 hm3
        (hin2.left hx2.wf.reserved hl3 hl4)
      have hx := hx2.trans hx3
      have hw3 := hx.wf
      rw [update_idem] at hw3
      refine h.create hi hdp hw3 (hx.geom.trans hl1.geom) ⟨⟨hx.onChain.head, hx.onChain.cursor⟩, ?_⟩
        (fun _ ↦ ?_) hm4 (hin2.right hx2.wf.reserved hl3)
      · show ep3.fileSize ≤ _
        rw [hx.entry]
        exact Nat.zero_le _
      · show ep3.firstClus ≠ 0
        rw [hx.entry]
        exact hc0
    · next hkind =>
      obtain ⟨⟨v4, dp4⟩, hm4, h1⟩ := bind_eq_ok h1
      cases h1
      dsimp only at hm4 hin
      refine h.create (l := []) hi hdp ?_ rfl ⟨⟨rfl, fun hf ↦ absurd rfl hf⟩, ?_⟩ ?_ hm4 hin
      · rw [← hnil, update_eq_self]
        exact h.table
      · exact Nat.zero_le _
      · intro hd
        cases kind with
        | dir => exact absurd rfl hkind
        | device => exact absurd rfl hdev
        | file ro => exact absurd (attr_file ro) hd
  · cases hs
    exact ⟨chain, h⟩

/-- Every operation keeps the invariant. -/
theorem fsStep_integrity (h : ∃ chain, Integrity s chain) {op : Op} (hs : FsStep s op s') :
    ∃ chain, Integrity s' chain := by
  obtain ⟨chain, h⟩ := h
  obtain ⟨hs, hin, hdev⟩ := hs
  cases op with
  | create i k name kind off => exact stepFs_create h hdev hs hin
  | write i src off n => exact stepFs_write h hs hin
  | read i dst off n => exact stepFs_read h hs
  | grow k off => exact stepFs_grow h hs hin
  | next k off => exact stepFs_next h hs
  | trunc i => exact stepFs_trunc h hs
  | remove i => exact stepFs_remove h hs
  | put i => exact stepFs_put h hs
  | reload i => exact stepFs_reload h hs

/-- In every state of every run the entries own disjoint acyclic chains that end in an
end-of-chain mark and together hold exactly the clusters in use; every cursor stands on
the cluster it counts, and every size fits into its chain. -/
theorem chains_intact {s0 s : FsState} {ops : List Op} (h0 : ∃ chain, Integrity s0 chain)
    (hrun : Runs FsStep s0 ops s) :
    ∃ chain : Nat → List Nat,
      (∀ i, s.ent i = none → chain i = []) ∧
      (∀ i e, s.ent i = some e →
        (chain i).head? = if e.firstClus = 0 then none else some e.firstClus) ∧
      (∀ i, Linked s.vol.fat EocMark (chain i)) ∧
      (∀ i, (chain i).Nodup) ∧
      (∀ i j, i ≠ j → List.Disjoint (chain i) (chain j)) ∧
      (∀ c, s.vol.fat c = 0 → ∀ i, c ∉ chain i) ∧
      (∀ c, s.vol.geom.InRange c → s.vol.fat c ≠ 0 → ∃! i, c ∈ chain i) ∧
      (∀ i e, s.ent i = some e → e.firstClus ≠ 0 → (chain i)[e.clusCnt]? = some e.curClus) ∧
      (∀ i e, s.ent i = some e → e.fileSize ≤ (chain i).length * s.vol.geom.bytsPerClus) := by
  have hinv : ∃ chain, Integrity s chain :=
    hrun.invariant _ (fun _ _ _ h hs ↦ fsStep_integrity h hs) h0
  obtain ⟨chain, h⟩ := hinv
  have hforest := h.table.forest
  refine ⟨chain, h.absent, fun i e he ↦ (h.entries i e he).onChain.head, hforest.linked,
    hforest.nodup, hforest.disjoint, fun c hc i hm ↦ h.table.used hm hc, fun c hc hu ↦ ?_,
    fun i e he ↦ (h.entries i e he).onChain.cursor, fun i e he ↦ (h.entries i e he).size⟩
  obtain ⟨i, hi⟩ := hforest.covered c hc hu
  exact ⟨i, hi, fun j hj ↦ hforest.index_unique hj hi⟩

/-- A volume of eight one-sector data clusters. -/
def smallGeom : Geom where
  secPerClus := 1
  rsvdSecCnt := 1
  fatCnt := 1
  fatSz := 1
  totSec := 10
  rootClus := 2
  secPerClus_pos := Nat.one_pos
  secPerClus_lt := by decide
  fatCnt_pos := Nat.one_pos
  totSec_lt := by decide
  firstData_le := by decide
  fat_covers := by decide
  clus_lt_eoc := by decide

/-- The small volume with only the root directory on it, in cluster 2. -/
def smallVolume : Volume where
  geom := smallGeom
  fat c := if 2 < c ∧ c ≤ 9 then 0 else fat32Eoc + 7
  card _ := 0

/-- The root directory of the small volume. -/
def smallRoot : Dirent :=
  { attr := attrDirectory, firstClus := 2, curClus := 2, valid := 1, ref := 1 }

/-- An empty file in the small root directory. -/
def smallFile : Dirent :=
  { filename := [0x61], attr := attrArchive, valid := 1, ref := 1, off := 64, parent := some 0 }

/-- The small volume with its root directory and an empty file. -/
def smallFs : FsState where
  vol := smallVolume
  ent i := if i = 0 then some smallRoot else if i = 1 then some smallFile else none

private theorem smallVolume_free {c : Nat} (h : smallVolume.fat c = 0) : smallGeom.InRange c := by
  have hc : 2 < c ∧ c ≤ 9 := by
    by_contra hn
    simp [smallVolume, hn] at h
  exact ⟨by omega, hc.2⟩

/-- The small volume satisfies the invariant. -/
theorem smallFs_integrity :
    Integrity smallFs (fun i ↦ if i = 0 then [2] else []) where
  table := by
    refine ⟨⟨fun i ↦ ?_, fun i ↦ ?_, fun i c hc ↦ ?_, fun i j hij ↦ ?_, fun c hc hu ↦ ?_⟩,
      by decide⟩
    · by_cases hi : i = 0
      · simp only [hi, if_true]
        exact ⟨by decide, by decide⟩
      · simp only [hi, if_false]
        trivial
    · by_cases hi : i = 0 <;> simp [hi]
    · by_cases hi : i = 0
      · simp only [hi, if_true, List.mem_singleton] at hc
        rw [hc]
        decide
      · simp [hi] at hc
    · by_cases hi : i = 0
      · have hj : j ≠ 0 := fun h0 ↦ hij (hi.trans h0.symm)
        simp [hj]
      · simp [hi]
    · refine ⟨0, ?_⟩
      have h1 := hc.1
      have h2 : c ≤ 9 := hc.2
      have h3 : ¬ (2 < c ∧ c ≤ 9) := by
        intro hx
        simp [smallFs, smallVolume, hx] at hu
      have hc2 : c = 2 := by omega
      simp [hc2]
  absent i hi := by
    by_cases h0 : i = 0
    · simp [smallFs, h0] at hi
    · simp [h0]
  entries i e he := by
    by_cases h0 : i = 0
    · subst h0
      cases he
      exact ⟨⟨rfl, fun _ ↦ rfl⟩, by decide⟩
    · by_cases h1 : i = 1
      · subst h1
        cases he
        exact ⟨⟨rfl, fun hf ↦ absurd rfl hf⟩, by decide⟩
      · simp [smallFs, h0, h1] at he
  dirs i e he := by
    by_cases h0 : i = 0
    · subst h0
      cases he
      decide
    · by_cases h1 : i = 1
      · subst h1
        cases he
        decide
      · simp [smallFs, h0, h1] at he

set_option maxRecDepth 4000 in
/-- A write to the empty file and a growth of the root directory, on the small volume. -/
theorem chains_intact_small :
    ∃ s, Runs FsStep smallFs [.write 1 (fun _ ↦ some 7) 0 3, .grow 0 512] s ∧
      ∃ chain : Nat → List Nat, ∀ i, Linked s.vol.fat EocMark (chain i) := by
  have hrun : ∃ s, Runs FsStep smallFs [.write 1 (fun _ ↦ some 7) 0 3, .grow 0 512] s := by
    refine ⟨_, .cons ⟨rfl, fun c hc _ ↦ smallVolume_free hc, trivial⟩
      (.cons ⟨rfl, fun c hc _ ↦ ?_, trivial⟩ (.nil _))⟩
    change update smallVolume.fat 3 (fat32Eoc + 7) c = 0 at hc
    by_cases h3 : c = 3
    · subst h3
      decide
    · rw [update_of_ne h3] at hc
      exact smallVolume_free hc
  obtain ⟨s, hs⟩ := hrun
  obtain ⟨chain, _, _, hl, _⟩ := chains_intact ⟨_, smallFs_integrity⟩ hs
  exact ⟨s, hs, chain, hl⟩

end Xv6K210.Fs
