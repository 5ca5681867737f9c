import Xv6K210.Buffer.Refinement
import Xv6K210.Ecache.Identity
import Xv6K210.Mount.Lookup

/-!
# Replacing the contents of the card

Sources `kernel/fs/fat32.c:130–145`, `kernel/fs/bio.c:192–208` and
`kernel/devsw/sdcarddev.c:130–134`. A process writes the raw sectors of the card and asks for the
caches to be invalidated. What stays behind are the entries and the buffers that are in use.
-/

namespace Xv6K210.Mount

open Xv6K210.Base Xv6K210.Ecache Prog

/-- The bytes of a sector. -/
abbrev Sector := Nat → UInt8

/-- The volume that the sectors hold. -/
def volumeOf (g : Fs.Geom) (sectors : Nat → Sector) : Fs.Volume :=
  let card : ByteMem := fun a ↦ sectors (a / Fs.bsize) (a % Fs.bsize)
  { geom := g
    fat := fun c ↦ leNat (load card (Fs.bsize * g.rsvdSecCnt + 4 * c) 4)
    card := card }

/-- The caches of entries and of sectors. -/
structure System (S B : Type) where
  store : Store S
  buffers : Buffer.Bcache B Sector

variable {S B : Type}

/-- What is read of a sector: a valid buffer, or the disk. -/
def presented (c : Buffer.Bcache B Sector) (n : Nat) : Sector :=
  match (c.bucket (Buffer.hash n)).list.find? fun b ↦ (c.buf b).holds 0 n with
  | none => c.disk n
  | some b => if (c.buf b).valid then (c.buf b).data else c.disk n

/-- The volume is what is read through the buffers. -/
def System.refresh (sys : System S B) : System S B :=
  { sys with store := { sys.store with
      vol := volumeOf sys.store.vol.geom (presented sys.buffers) } }

section

variable [DecidableEq S] [DecidableEq B]

/-- `fat32_invalidate`. -/
def fat32Invalidate : Cached S Unit :=
  modify fun c ↦ { c with
    ent := fun e ↦
      match e with
      | .root => c.ent .root
      | .entry s =>
        if (c.ent (.entry s)).ref = 0 then
          { c.ent (.entry s) with valid := 0, dirty := false, parent := none }
        else c.ent (.entry s) }

/-- A routine on the cached entries. -/
def onEntries (x : Cached S Unit) : Prog (System S B) Unit := fun sys ↦
  match x sys.store.cache with
  | .ok (_, c) => .ok ((), { sys with store := { sys.store with cache := c } })
  | .error msg => .error msg

/-- A routine on the buffers. -/
def onBuffers (x : Buffer.Bio B Sector Unit) : Prog (System S B) Unit := fun sys ↦
  match x sys.buffers with
  | .ok (_, c) => .ok ((), { sys with buffers := c })
  | .error msg => .error msg

/-- The sectors of the card are replaced through the device, and `SDCARD_IOCTL_INVALIDATE_CACHE` is
asked for. -/
def replaceCard (new : Nat → Sector) : Prog (System S B) Unit := do
  modify fun sys ↦ { sys with buffers := { sys.buffers with disk := new } }
  onEntries fat32Invalidate
  onBuffers (Buffer.binvalidate 0)
  modify System.refresh

/-! ### Lookups afterwards -/

/-- The entries on the volume, and the references that callers hold. -/
structure Session (S : Type) where
  store : Store S
  held : List (Ent S)

/-- What a caller does: `ename` for a process in a directory, `edup` and `eput`. -/
inductive Call (S : Type) where
  | ename (cwd : Ent S) (path : List UInt8)
  | edup (e : Ent S)
  | eput (e : Ent S)

/-- The reference discipline of the callers. -/
def Call.Legal (held : List (Ent S)) : Call S → Prop
  | .ename cwd _ => cwd = .root ∨ cwd ∈ held
  | .edup e => e = .root ∨ e ∈ held
  | .eput e => e ∈ held

instance (held : List (Ent S)) (call : Call S) : Decidable (call.Legal held) :=
  match call with
  | .ename _ _ => inferInstanceAs (Decidable (_ ∨ _))
  | .edup _ => inferInstanceAs (Decidable (_ ∨ _))
  | .eput _ => inferInstanceAs (Decidable (_ ∈ _))

/-- The references that are held after a call. -/
def Call.run : Call S → List (Ent S) → Mounted S (List (Ent S))
  | .ename cwd path, held => do
    let r ← Mount.ename cwd path
    pure (r.toList ++ held)
  | .edup e, held => do
    lift (Ecache.edup e)
    pure (e :: held)
  | .eput e, held => do
    Mount.eput e
    pure (held.erase e)

/-- The state after a call that returns. -/
def Session.next (s : Session S) (call : Call S) : Option (Session S) :=
  if call.Legal s.held then
    match call.run s.held s.store with
    | .ok (held, st) => some ⟨st, held⟩
    | .error _ => none
  else
    none

def Session.Step (s : Session S) (call : Call S) (s' : Session S) : Prop :=
  s.next call = some s'

/-- What `ename` returns is what the walk finds: the root, or an entry with the attribute, the first
cluster, the size and the offset that the contents have. -/
def Answers (c : Cache S) (r : Option (Ent S)) (out : Except Fs.Panic (Option Place)) : Prop :=
  match r with
  | none => out = .ok none
  | some .root => out = .ok (some [])
  | some (.entry s) => ∃ above, out = .ok (some (entryFound (c.ent (.entry s)) :: above))

omit [DecidableEq S] in
/-- Where a walk leads answers the path. -/
theorem Leads.answers {v : Fs.Volume} {c : Cache S} {r : Option (Ent S)}
    {out : Except Fs.Panic (Option Place)} (h : Leads v c r out) : Answers c r out := by
  cases r with
  | none => exact h
  | some e =>
    obtain ⟨place, hout, hstands⟩ := h
    cases hstands with
    | root => exact hout
    | @entry s p place valid parent up dir found => exact ⟨place, hout⟩

/-- The caches present the contents `v`: nothing was written to them, paths lead where they lead in
the contents, and giving entries back writes nothing. -/
structure Presents (v : Fs.Volume) (s : Session S) : Prop where
  vol : s.store.vol = v
  cwd : ∀ e ∈ s.held, (s.store.cache.ent e).isDir = true → ∃ place, Stands v s.store.cache e place
  ename : ∀ cwd path place r st', cwd = .root ∨ cwd ∈ s.held →
    Stands v s.store.cache cwd place → Mount.ename cwd path s.store = .ok (r, st') →
      Answers st'.cache r (coldName v place path)
  eput : ∀ e ∈ s.held, ∀ st', Mount.eput e s.store = .ok ((), st') → st'.vol = v

/-! ### The invariant of the calls -/

section

variable [Fintype S] {v : Fs.Volume}

/-- The contents are `v`, and the references that are held are the ones that are counted. -/
def Session.Fresh (v : Fs.Volume) (s : Session S) : Prop :=
  Mount.Fresh v (fun e ↦ (s.held.count e : Int)) s.store ∧ Settled s.store.cache

/-- The working directory of a fresh session is the root or held. -/
theorem Session.Fresh.cwd {s : Session S} (h : s.Fresh v) {cwd : Ent S}
    (hcwd : cwd = .root ∨ cwd ∈ s.held) : cwd = .root ∨ 0 < (s.store.cache.ent cwd).ref := by
  apply hcwd.imp_right
  intro hheld
  apply h.1.sound.ref_pos
  exact_mod_cast List.count_pos_iff.mpr hheld

/-- The reference that is given back was held. -/
theorem Session.Fresh.erase {s : Session S} (h : s.Fresh v) {e : Ent S} (he : e ∈ s.held) :
    Mount.Fresh v (fun x ↦ ((s.held.erase e).count x : Int) + holds (some e) x) s.store := by
  apply h.1.calm ⟨rfl, rfl, .counts fun _ ↦ ⟨_, rfl⟩⟩
  apply h.1.sound.congr
  intro x
  unfold holds
  by_cases hx : e = x
  · subst hx
    have hpos := List.count_pos_iff.mpr he
    rw [List.count_erase_self, if_pos rfl]
    omega
  · rw [List.count_erase_of_ne (by simpa using Ne.symm hx)]
    simp [hx]

/-- A call leaves the contents as they are. -/
theorem Session.Fresh.step (htidy : Tidy v) {s s' : Session S} {call : Call S} (h : s.Fresh v)
    (hstep : Session.Step s call s') : s'.Fresh v := by
  have hd : ∀ e, (0 : Int) ≤ (s.held.count e : Int) := fun e ↦ Int.natCast_nonneg _
  have hgain : ∀ {st : Store S} (r : Option (Ent S)),
      Mount.Fresh v (fun e ↦ (s.held.count e : Int) + holds r e) st → Settled st.cache →
        Session.Fresh v ⟨st, r.toList ++ s.held⟩ := by
    intro st r h' hs'
    refine ⟨h'.calm ⟨rfl, rfl, .counts fun _ ↦ ⟨_, rfl⟩⟩ (h'.sound.congr fun e ↦ ?_), hs'⟩
    exact count_cons s.held r e
  unfold Session.Step Session.next at hstep
  split_ifs at hstep with hlegal
  have hrun : Ensures (call.run s.held) s.store fun held st ↦ Session.Fresh v ⟨st, held⟩ := by
    cases call with
    | ename cwd path =>
      unfold Call.run
      apply (ename_fresh htidy h.1 hd h.2 path (h.cwd hlegal)).bind
      rintro r st ⟨h', hs', -⟩
      exact ensures_pure.mpr (hgain r h' hs')
    | edup e =>
      unfold Call.run
      apply (edup_fresh h.1 h.2 (h.cwd hlegal)).bind
      rintro _ st ⟨h', hs', -⟩
      exact ensures_pure.mpr (hgain (some e) h' hs')
    | eput e =>
      unfold Call.run
      apply (eput_fresh (fun _ ↦ Int.natCast_nonneg _) (h.erase hlegal)).bind
      rintro _ st ⟨h', -, hs'⟩
      exact ensures_pure.mpr ⟨h', hs' h.2⟩
  split at hstep
  · rename_i held st heq
    cases hstep
    exact hrun.of_ok held st heq
  · cases hstep

/-- The caches present the contents. -/
theorem Session.Fresh.presents (htidy : Tidy v) {s : Session S} (h : s.Fresh v) :
    Presents v s := by
  have hd : ∀ e, (0 : Int) ≤ (s.held.count e : Int) := fun e ↦ Int.natCast_nonneg _
  refine ⟨h.1.vol, ?_, ?_, ?_⟩
  · intro e he hdir
    have hpos : 0 < (s.store.cache.ent e).ref := by
      apply h.1.sound.ref_pos
      exact_mod_cast List.count_pos_iff.mpr he
    exact h.1.stands_of_dir h.2 hpos hdir
  · intro cwd path place r st' hcwd hplace hrun
    obtain ⟨-, -, hleads⟩ := (ename_fresh htidy h.1 hd h.2 path (h.cwd hcwd)).of_ok r st' hrun
    exact (hleads place hplace).answers
  · intro e he st' hrun
    exact ((eput_fresh (fun _ ↦ Int.natCast_nonneg _) (h.erase he)).of_ok () st' hrun).1.vol

/-! ### The invalidation -/

/-- The state of the caches between the calls, with the references that callers hold. -/
structure System.Sound (held : List (Ent S)) (sys : System S B) : Prop where
  entries : Ecache.Sound (fun e ↦ (held.count e : Int)) sys.store.cache
  settled : Settled sys.store.cache
  root : HasRoot sys.store.vol sys.store.cache
  start : ∀ e, (sys.store.cache.ent e).valid = 1 → (sys.store.cache.ent e).isDir = true →
    AtStart (sys.store.dirent e)
  buffers : Buffer.Coherent (fun _ ↦ 0) sys.buffers

/-- What is in use agrees with the new contents: an entry stands where they have it and needs no
write-back, a removed one owns nothing, and a buffer holds its sector. -/
structure System.Agrees (new : Nat → Sector) (sys : System S B) : Prop where
  entries : ∀ s, 0 < (sys.store.cache.ent (.entry s)).ref →
    Fits (volumeOf sys.store.vol.geom new) sys.store.cache s
  buffers : ∀ b, 0 < (sys.buffers.buf b).refcnt → (sys.buffers.buf b).valid = true →
    (sys.buffers.buf b).data = new (sys.buffers.buf b).blockno

/-- `fat32_invalidate` leaves the entries in use, and no others are filled. -/
theorem fat32Invalidate_sound {d : Ent S → Int} {c : Cache S} (hd : ∀ x, 0 ≤ d x)
    (h : Ecache.Sound d c) :
    Ensures fat32Invalidate c fun _ c' ↦ Ecache.Sound d c' ∧ c'.ent .root = c.ent .root ∧
      (∀ s, 0 < (c.ent (.entry s)).ref → c'.ent (.entry s) = c.ent (.entry s)) ∧
      (∀ s, (c'.ent (.entry s)).valid ≠ 0 → 0 < (c.ent (.entry s)).ref) ∧
      ∀ e, (c'.ent e).ref = (c.ent e).ref := by
  unfold fat32Invalidate
  rw [ensures_modify]
  set c' : Cache S := { c with
    ent := fun e ↦
      match e with
      | .root => c.ent .root
      | .entry s =>
        if (c.ent (.entry s)).ref = 0 then
          { c.ent (.entry s) with valid := 0, dirty := false, parent := none }
        else c.ent (.entry s) } with hc'
  have hused : ∀ s, 0 < (c.ent (.entry s)).ref → c'.ent (.entry s) = c.ent (.entry s) := by
    intro s hs
    exact if_neg (by omega)
  have hfree : ∀ s, (c.ent (.entry s)).ref = 0 → c'.ent (.entry s) =
      { c.ent (.entry s) with valid := 0, dirty := false, parent := none } := by
    intro s hs
    exact if_pos hs
  have hvalid : ∀ s, (c'.ent (.entry s)).valid ≠ 0 → 0 < (c.ent (.entry s)).ref := by
    intro s hv
    by_contra hzero
    rw [hfree s (by omega)] at hv
    exact hv rfl
  have href : ∀ e, (c'.ent e).ref = (c.ent e).ref := by
    intro e
    cases e with
    | root => rfl
    | entry s =>
      by_cases hs : (c.ent (.entry s)).ref = 0
      · rw [hfree s hs]
      · rw [hused s (by omega)]
  have hlink : c'.link = c.link := by
    ext s : 1
    by_cases hs : (c.ent (.entry s)).ref = 0
    · have hnew : c'.link s = none := by
        apply Dirent.link_of_unused
        rw [href, hs]
      rw [hnew]
      exact (Dirent.link_of_unused hs).symm
    · unfold Cache.link
      rw [hused s (by omega)]
  refine ⟨⟨?_, h.shape.nodup, h.shape.all, h.shape.root, ?_, ?_, ?_⟩, rfl, hused, hvalid, href⟩
  · intro e
    rw [href, hlink]
    exact h.count e
  · intro s hv
    have hs := hvalid s hv
    rw [hused s hs] at hv ⊢
    exact h.shape.parent s hv
  · intro s p hv hp
    have hs := hvalid s (by rw [hv]; decide)
    rw [hused s hs] at hv hp ⊢
    have hkept : c'.ent p = c.ent p := by
      cases p with
      | root => rfl
      | entry t => exact hused t (h.parent_pos hd hs (by rw [hv]; decide) hp)
    rw [hkept]
    exact h.shape.home s p hv hp
  · intro s t hv hzero
    have hs := hvalid s (by rw [hv]; decide)
    rw [href] at hzero
    omega

/-- An entry in use still stands where it stood: its directories are in use. -/
theorem stands_of_used {d : Ent S → Int} {c c' : Cache S} (hd : ∀ x, 0 ≤ d x)
    (h : Ecache.Sound d c)
    (hused : ∀ s, 0 < (c.ent (.entry s)).ref → c'.ent (.entry s) = c.ent (.entry s))
    {e : Ent S} {place : Place} (hstands : Stands v c e place)
    (he : e = .root ∨ 0 < (c.ent e).ref) : Stands v c' e place := by
  induction hstands with
  | root => exact .root
  | @entry s p place valid parent up dir found ih =>
    have hpos := he.resolve_left (by simp)
    have heq := hused s hpos
    rw [← heq]
    apply Stands.entry
    · rw [heq]
      exact valid
    · rw [heq]
      exact parent
    · exact ih (.inr (h.parent_pos hd hpos (by rw [valid]; decide) parent))
    · exact dir
    · rw [heq]
      exact found

omit [DecidableEq S] [Fintype S] [DecidableEq B] in
private theorem ensures_onEntries {x : Cached S Unit} {sys : System S B}
    {post : Unit → System S B → Prop}
    (h : Ensures x sys.store.cache fun _ c ↦
      post () { sys with store := { sys.store with cache := c } }) :
    Ensures (onEntries x) sys post := by
  constructor
  intro a t heq
  unfold onEntries at heq
  cases hx : x sys.store.cache with
  | error msg =>
    rw [hx] at heq
    cases heq
  | ok p =>
    rw [hx] at heq
    cases heq
    exact h.of_ok p.1 p.2 hx

omit [DecidableEq S] [Fintype S] [DecidableEq B] in
private theorem ensures_onBuffers {x : Buffer.Bio B Sector Unit} {sys : System S B}
    {post : Unit → System S B → Prop}
    (h : Ensures x sys.buffers fun _ c ↦ post () { sys with buffers := c }) :
    Ensures (onBuffers x) sys post := by
  constructor
  intro a t heq
  unfold onBuffers at heq
  cases hx : x sys.buffers with
  | error msg =>
    rw [hx] at heq
    cases heq
  | ok p =>
    rw [hx] at heq
    cases heq
    exact h.of_ok p.1 p.2 hx

omit [DecidableEq B] in
/-- A coherent cache of sectors presents the disk. -/
theorem presented_coherent {c : Buffer.Bcache B Sector} (h : Buffer.Coherent (fun _ ↦ 0) c) :
    presented c = c.disk := by
  ext n : 1
  unfold presented
  split
  · rfl
  · rename_i b hb
    have hholds := List.find?_some hb
    unfold Buffer.Buf.holds at hholds
    rw [decide_eq_true_iff] at hholds
    by_cases hv : (c.buf b).valid = true
    · rw [if_pos hv, h.data b hv, hholds.2]
    · rw [if_neg hv]

/-- Where all that is in use agrees with the new contents, the caches present them. -/
theorem replaceCard_fresh {held : List (Ent S)} {sys : System S B} {new : Nat → Sector}
    (hsound : sys.Sound held) (hagree : sys.Agrees new) :
    Ensures (replaceCard new) sys fun _ sys' ↦
      Session.Fresh (volumeOf sys.store.vol.geom new) ⟨sys'.store, held⟩ ∧
        Buffer.Coherent (fun _ ↦ 0) sys'.buffers ∧ sys'.buffers.disk = new := by
  have hd : ∀ e, (0 : Int) ≤ (held.count e : Int) := fun e ↦ Int.natCast_nonneg _
  unfold replaceCard
  rw [ensures_bind, ensures_modify, ensures_bind]
  apply ensures_onEntries
  apply (fat32Invalidate_sound hd hsound.entries).mono
  rintro _ c1 ⟨hentries, hroot, hused, hvalid, href⟩
  rw [ensures_bind]
  apply ensures_onBuffers
  apply (Buffer.binvalidate_blanked 0 _).mono
  intro _ c2 hblank
  rw [ensures_modify]
  have hbuffers : Buffer.Coherent (fun _ ↦ 0) c2 := by
    apply hsound.buffers.blank hblank.bucket hblank.same hblank.valid
    intro b hv
    have hold := hblank.valid b hv
    -- a valid buffer that nobody refers to would have been dropped
    have hrefcnt : 0 < (sys.buffers.buf b).refcnt := by
      obtain ⟨i, hi⟩ := (hsound.buffers.lists.cover b).resolve_left id
      by_contra hzero
      have hno := hblank.left b i hi List.not_mem_nil (hsound.buffers.dev b (.inr hold))
        (Nat.eq_zero_of_not_pos hzero)
      rw [hv] at hno
      cases hno
    rw [hblank.disk, hblank.same b]
    exact hagree.buffers b hrefcnt hold
  have hvol : volumeOf sys.store.vol.geom (presented c2) = volumeOf sys.store.vol.geom new := by
    rw [presented_coherent hbuffers, hblank.disk]
  refine ⟨⟨⟨hvol, hentries, ⟨?_, ?_, ?_⟩, ?_, ?_⟩, ?_⟩, hbuffers, hblank.disk⟩
  · exact hroot ▸ hsound.root.valid
  · exact hroot ▸ hsound.root.clus
  · exact hroot ▸ hsound.root.dir
  · intro s hv
    have hs := hvalid s hv
    have heq := hused s hs
    change Fits _ c1 s
    cases hagree.entries s hs with
    | stands place clean stands =>
      apply Fits.stands place
      · rw [heq]
        exact clean
      · exact stands_of_used hd hsound.entries hused stands (.inr hs)
    | gone valid dir clus =>
      apply Fits.gone
      · rw [heq]
        exact valid
      · rw [heq]
        exact dir
      · rw [heq]
        exact clus
  · intro e hv hdir
    have heq : c1.ent e = sys.store.cache.ent e := by
      cases e with
      | root => exact hroot
      | entry s =>
        apply hused s
        apply hvalid s
        rw [show (c1.ent (.entry s)).valid = 1 from hv]
        decide
    have hold := hsound.start e (heq ▸ hv) (heq ▸ hdir)
    unfold AtStart Store.dirent System.refresh at *
    dsimp only at *
    rw [heq]
    exact hold
  · intro s hs
    change 0 < (c1.ent (.entry s)).ref at hs
    change (c1.ent (.entry s)).valid ≠ 0
    rw [href] at hs
    rw [hused s hs]
    exact hsound.settled s hs

/-- Where all that is in use agrees with the new contents, then after the invalidation the buffers
are those of the new sectors, and after every run of calls the caches present the new contents. -/
theorem invalidate_complete [Fintype B] {held : List (Ent S)} {sys sys' : System S B}
    {new : Nat → Sector} (hsound : sys.Sound held) (hagree : sys.Agrees new)
    (htidy : Tidy (volumeOf sys.store.vol.geom new))
    (hrun : replaceCard new sys = .ok ((), sys')) :
    Buffer.Caches (Fintype.card B) (fun _ ↦ 0) new sys'.buffers ∧
      ∀ calls s, Runs Session.Step ⟨sys'.store, held⟩ calls s →
        Presents (volumeOf sys.store.vol.geom new) s := by
  obtain ⟨hfresh, hbuffers, hdisk⟩ := (replaceCard_fresh hsound hagree).of_ok () sys' hrun
  constructor
  · have hcaches := hbuffers.caches
    rw [hdisk] at hcaches
    exact hcaches
  · intro calls s hruns
    apply Session.Fresh.presents htidy
    exact Runs.invariant (Session.Fresh _) (fun _ _ _ h hstep ↦ h.step htidy hstep) hruns hfresh

end

end

/-! ### A small card -/

/-- A volume of eight clusters of one sector each. -/
def smallGeom : Fs.Geom where
  secPerClus := 1
  rsvdSecCnt := 1
  fatCnt := 1
  fatSz := 1
  totSec := 10
  rootClus := 2
  secPerClus_pos := Fs.smallGeom.secPerClus_pos
  secPerClus_lt := Fs.smallGeom.secPerClus_lt
  fatCnt_pos := Fs.smallGeom.fatCnt_pos
  totSec_lt := Fs.smallGeom.totSec_lt
  firstData_le := Fs.smallGeom.firstData_le
  fat_covers := Fs.smallGeom.fat_covers
  clus_lt_eoc := Fs.smallGeom.clus_lt_eoc

/-- The caches after `fat32_init` and `binit`, with `n` slots and `nbuf` buffers. -/
def System.boot (n nbuf : Nat) (g : Fs.Geom) (disk : Nat → Sector) :
    System (Fin n) (Fin nbuf) where
  store :=
    { cache := (Users.boot n g.rootClus).cache
      cursor := fun e ↦ if e = .root then (g.rootClus, 0) else (0, 0)
      vol := volumeOf g disk }
  buffers := Buffer.binit nbuf (fun _ ↦ 0) disk

private theorem System.boot_sound (n nbuf : Nat) (g : Fs.Geom) (disk : Nat → Sector) :
    (System.boot n nbuf g disk).Sound [] := by
  refine ⟨(Users.sound_boot n g.rootClus).1, (Users.sound_boot n g.rootClus).2,
    ⟨rfl, rfl, ?_⟩, ?_, Buffer.binit_coherent nbuf _ disk _⟩
  · change decide ((0x14 : UInt8) &&& Fs.attrDirectory ≠ 0) = true
    decide
  intro e hv _ _
  cases e with
  | root => rfl
  | entry s => cases hv

/-- Blank sectors. -/
def blankCard : Nat → Sector := fun _ _ ↦ 0

/-- A root directory with the one entry `a`. -/
def smallCard : Nat → Sector := fun n k ↦
  if n = 2 ∧ k = 0 then 0x61 else if n = 2 ∧ k ≤ 11 then 0x20 else 0

/-- The path `/a`. -/
def pathA : List UInt8 := [0x2f, 0x61]

/-- The path `/b`. -/
def pathB : List UInt8 := [0x2f, 0x62]

/-- A root directory whose chain ends in the allocation table, with the entry `a` and, when there
are `more`, the entry `b`. -/
def rootCard (more : Bool) : Nat → Sector := fun n k ↦
  if n = 1 ∧ 8 ≤ k ∧ k ≤ 11 then 0x0f
  else if n = 2 ∧ k ≤ 11 then if k = 0 then 0x61 else 0x20
  else if n = 2 ∧ more = true ∧ 32 ≤ k ∧ k ≤ 43 then if k = 32 then 0x62 else 0x20
  else 0

private theorem tidy_rootCard (more : Bool) : Tidy (volumeOf smallGeom (rootCard more)) := by
  apply tidy_of_clean
  intro a
  change rootCard more (a / Fs.bsize) (a % Fs.bsize) ≠ Fs.emptyEntry
  unfold rootCard
  split_ifs <;> decide

/-- Only the sector of the root directory changes. -/
theorem rootCard_same {n : Nat} (hn : n ≠ 2) : rootCard false n = rootCard true n := by
  ext k : 1
  unfold rootCard
  simp only [hn, false_and, if_false]

/-- The entry `a` is in use and stands where it stood, no other entry is in use. -/
def OnlyA (st : Store (Fin 3)) : Prop :=
  (st.cache.ent (.entry 0)).valid = 1 ∧ (st.cache.ent (.entry 0)).parent = some .root ∧
    (st.cache.ent (.entry 0)).dirty = false ∧ 0 < (st.cache.ent (.entry 0)).ref ∧
    (∀ s, s ≠ 0 → (st.cache.ent (.entry s)).ref = 0) ∧
    (coldSearch (volumeOf smallGeom (rootCard true)) 2
      (st.cache.ent (.entry 0)).filename).toOption =
        some (some (entryFound (st.cache.ent (.entry 0))))

instance (st : Store (Fin 3)) : Decidable (OnlyA st) := inferInstanceAs (Decidable (_ ∧ _))

/-- The entry fits the new contents. -/
theorem OnlyA.fits {st : Store (Fin 3)} (h : OnlyA st) {s : Fin 3}
    (hs : 0 < (st.cache.ent (.entry s)).ref) :
    Fits (volumeOf smallGeom (rootCard true)) st.cache s := by
  obtain ⟨hvalid, hparent, hclean, -, hrest, hfound⟩ := h
  have hzero : s = 0 := by
    by_contra hne
    rw [hrest s hne] at hs
    exact lt_irrefl _ hs
  subst hzero
  refine .stands _ hclean (.entry hvalid hparent .root rfl ?_)
  change coldSearch _ 2 _ = _
  cases hsearch : coldSearch (volumeOf smallGeom (rootCard true)) 2
    (st.cache.ent (.entry 0)).filename with
  | error p =>
    rw [hsearch] at hfound
    cases hfound
  | ok x =>
    rw [hsearch] at hfound
    rw [Option.some.inj hfound]

/-- A process has `a` open, and a buffer of the allocation table is in use, when a card with `a` and
`b` is written. -/
theorem invalidate_complete_small :
    ∃ (sys sys' : System (Fin 3) (Fin 30)) (b : Fin 30) (st1 st2 : Store (Fin 3)),
      ename .root pathA (System.boot 3 30 smallGeom (rootCard false)).store =
          .ok (some (.entry 0), sys.store) ∧
        Buffer.bread 30 0 1 (System.boot 3 30 smallGeom (rootCard false)).buffers =
          .ok (b, sys.buffers) ∧
        0 < (sys.store.cache.ent (.entry 0)).ref ∧ 0 < (sys.buffers.buf b).refcnt ∧
        replaceCard (rootCard true) sys = .ok ((), sys') ∧
        (∀ calls s, Runs Session.Step ⟨sys'.store, [.entry 0]⟩ calls s →
          Presents (volumeOf smallGeom (rootCard true)) s) ∧
        ename .root pathA sys'.store = .ok (some (.entry 0), st1) ∧
        ename .root pathB sys'.store = .ok (some (.entry 1), st2) ∧
        Answers st2.cache (some (.entry 1))
          (coldName (volumeOf smallGeom (rootCard true)) [] pathB) := by
  have hreturns : returns (ename .root pathA) (System.boot 3 30 smallGeom (rootCard false)).store
      (fun r st ↦ decide (r = some (.entry 0) ∧ OnlyA st) &&
        returns (Buffer.bread 30 0 1) (System.boot 3 30 smallGeom (rootCard false)).buffers
          fun b bufs ↦ decide (0 < (bufs.buf b).refcnt ∧
              ∀ x, 0 < (bufs.buf x).refcnt → (bufs.buf x).blockno ≠ 2) &&
            returns (replaceCard (rootCard true)) ⟨st, bufs⟩ fun _ sys' ↦
              returns (ename .root pathA) sys'.store (fun r _ ↦ decide (r = some (.entry 0))) &&
                returns (ename .root pathB) sys'.store fun r _ ↦ decide (r = some (.entry 1))) =
      true := by decide +kernel
  obtain ⟨r, st, hopen, hopened⟩ := exists_of_returns hreturns
  obtain ⟨hst, hbread⟩ := Bool.and_eq_true_iff.mp hopened
  obtain ⟨rfl, honly⟩ := of_decide_eq_true hst
  obtain ⟨b, bufs, hread, hcached⟩ := exists_of_returns hbread
  obtain ⟨hbufs, hreplace⟩ := Bool.and_eq_true_iff.mp hcached
  obtain ⟨hused, hother⟩ := of_decide_eq_true hbufs
  obtain ⟨_, sys', hrun, hlookups⟩ := exists_of_returns hreplace
  obtain ⟨hagain, hnew⟩ := Bool.and_eq_true_iff.mp hlookups
  obtain ⟨r1, st1, hA, hr1⟩ := exists_of_returns hagain
  obtain rfl := of_decide_eq_true hr1
  obtain ⟨r2, st2, hB, hr2⟩ := exists_of_returns hnew
  obtain rfl := of_decide_eq_true hr2
  -- the caches before, from the boot
  have hboot := System.boot_sound 3 30 smallGeom (rootCard false)
  have hfresh0 : Session.Fresh (volumeOf smallGeom (rootCard false))
      ⟨(System.boot 3 30 smallGeom (rootCard false)).store, []⟩ :=
    ⟨⟨rfl, hboot.entries, hboot.root, fun s hs ↦ absurd rfl hs, hboot.start⟩, hboot.settled⟩
  have hstep : Session.Step ⟨(System.boot 3 30 smallGeom (rootCard false)).store, []⟩
      (.ename .root pathA) ⟨st, [.entry 0]⟩ := by
    unfold Session.Step Session.next Call.run
    rw [if_pos (.inl rfl)]
    simp only [bind, StateT.bind, hopen]
    rfl
  have hfresh := hfresh0.step (tidy_rootCard false) hstep
  obtain ⟨hcoherent, hdisk, -⟩ := (Buffer.bread_coherent hboot.buffers 1).of_ok b bufs
    (by rw [Fintype.card_fin]; exact hread)
  have hsound : System.Sound [.entry 0] (⟨st, bufs⟩ : System (Fin 3) (Fin 30)) :=
    ⟨hfresh.1.sound, hfresh.2, hfresh.1.vol ▸ hfresh.1.root, hfresh.1.start, hcoherent⟩
  have hgeom : st.vol.geom = smallGeom := by
    rw [hfresh.1.vol]
    rfl
  have hagree : System.Agrees (rootCard true) (⟨st, bufs⟩ : System (Fin 3) (Fin 30)) := by
    refine ⟨fun s hs ↦ ?_, fun x hx hv ↦ ?_⟩
    · rw [hgeom]
      exact honly.fits hs
    · rw [← rootCard_same (hother x hx), hcoherent.data x hv, hdisk]
      rfl
  have hcomplete := (invalidate_complete hsound hagree (by rw [hgeom]; exact tidy_rootCard true)
    hrun).2
  rw [hgeom] at hcomplete
  exact ⟨⟨st, bufs⟩, sys', b, st1, st2, hopen, hread, honly.2.2.2.1, hused, hrun, hcomplete, hA, hB,
    (hcomplete [] _ (.nil _)).ename .root pathB [] _ st2 (.inl rfl) .root hB⟩

/-- An entry that is in use when the card is blanked is found afterwards, and is not there. -/
theorem stale_entry : ∃ sys sys' : System (Fin 2) (Fin 30), ∃ s st',
    ename .root pathA (System.boot 2 30 smallGeom smallCard).store =
        .ok (some (.entry s), sys.store) ∧
      replaceCard blankCard sys = .ok ((), sys') ∧
      ename .root pathA sys'.store = .ok (some (.entry s), st') ∧
      coldName (volumeOf smallGeom blankCard) [] pathA = .ok none := by
  have hreturns : returns (ename .root pathA) (System.boot 2 30 smallGeom smallCard).store
      (fun r st ↦ decide (r = some (.entry 0)) &&
        returns (replaceCard blankCard)
          ⟨st, (System.boot 2 30 smallGeom smallCard).buffers⟩ fun _ sys' ↦
            returns (ename .root pathA) sys'.store fun r' _ ↦ decide (r' = some (.entry 0))) =
      true := by decide +kernel
  obtain ⟨r, st, hold, hcheck⟩ := exists_of_returns hreturns
  obtain ⟨hr, hreplace⟩ := Bool.and_eq_true_iff.mp hcheck
  obtain ⟨_, sys', hrun, hfound⟩ := exists_of_returns hreplace
  obtain ⟨r', st', hnew, hr'⟩ := exists_of_returns hfound
  rw [of_decide_eq_true hr] at hold
  rw [of_decide_eq_true hr'] at hnew
  exact ⟨_, sys', 0, st', hold, hrun, hnew, rfl⟩

end Xv6K210.Mount
