import Xv6K210.Ecache.Identity
import Xv6K210.Ecache.Names

/-!
# The working directory

Source `kernel/syscall/sysfile.c:292–325,410–443`. `sys_getcwd` walks the parent
pointers up and writes the path backwards; a lookup of that path walks down again. A process makes
directories and changes its own among others who look up, create and remove.
-/

namespace Xv6K210.Ecache

open Xv6K210.Base Xv6K210.Fs Prog Function

variable {S : Type}

/-- `FAT32_MAX_PATH`. -/
def fat32MaxPath : Nat := 260

/-- The loop of `sys_getcwd`. The path so far is `s`, behind `room` free bytes of the buffer. -/
def getcwdLoop (c : Cache S) (room : Nat) (de : Ent S) (s : List UInt8) : Option (List UInt8) :=
  match (c.ent de).parent with
  | none => some s
  | some parent =>
    let name := (c.ent de).filename
    if room ≤ name.length then none
    else getcwdLoop c (room - name.length - 1) parent (0x2f :: (name ++ s))
termination_by room

/-- `sys_getcwd`: the string that it stores, when it returns 0. `copyout` says whether the bytes
can be stored. -/
def sysGetcwd (c : Cache S) (cwd : Ent S) (copyout : List UInt8 → Bool) : Option (List UInt8) :=
  let path :=
    if (c.ent cwd).parent = none then some [0x2f]
    else getcwdLoop c (fat32MaxPath - 1) cwd []
  path.filter fun s ↦ copyout (s ++ [0])

variable [DecidableEq S]

/-- `sys_mkdir`. -/
def sysMkdir (cwd : Ent S) (path : List UInt8) (off : Nat) : Cached S Bool := do
  match ← create cwd path .dir 0 0 off with
  | none => pure false
  | some e =>
    eunlock e
    eput e
    pure true

/-- `sys_chdir`: the new directory, unless the call fails. -/
def sysChdir (cwd : Ent S) (path : List UInt8) : Cached S (Option (Ent S)) := do
  match ← ename cwd path with
  | none => pure none
  | some e =>
    elock e
    let c ← get
    if (c.ent e).isDir = false then
      eunlock e
      eput e
      pure none
    else
      eunlock e
      eput cwd
      pure (some e)

/-! ### Processes -/

/-- A process with its directory, and the references of all callers. -/
structure Process (S : Type) where
  cache : Cache S
  cwd : Ent S
  held : List (Ent S)

/-- What happens next: a call of the process, or an operation of anybody. -/
inductive Call (S : Type) where
  | mkdir (path : List UInt8) (off : Nat)
  | chdir (path : List UInt8)
  | other (op : Op S)

/-- Nobody gives back the reference of the process, and `dirlookup` gets names that fit. -/
def Op.Spares (cwd : Ent S) (held : List (Ent S)) : Op S → Prop
  | .put e => e ∈ held.erase cwd
  | .find _ name => name.length ≤ fat32MaxFilename
  | _ => True

instance (cwd : Ent S) (held : List (Ent S)) (op : Op S) : Decidable (op.Spares cwd held) :=
  match op with
  | .lookup _ _ => .isTrue trivial
  | .find _ name => inferInstanceAs (Decidable (name.length ≤ fat32MaxFilename))
  | .create _ _ _ _ _ _ => .isTrue trivial
  | .remove _ _ => .isTrue trivial
  | .dup _ => .isTrue trivial
  | .put e => inferInstanceAs (Decidable (e ∈ held.erase cwd))

/-- A call from a cache that has the answers of the disk. -/
def Call.run (u : Process S) (c : Cache S) : Call S → Except String (Process S)
  | .mkdir path off => do
    let (_, c) ← sysMkdir u.cwd path off c
    pure { u with cache := c }
  | .chdir path => do
    match ← sysChdir u.cwd path c with
    | (none, c) => pure { u with cache := c }
    | (some e, c) => pure ⟨c, e, e :: u.held.erase u.cwd⟩
  | .other op => do
    if op.Legal u.held ∧ op.Spares u.cwd u.held then
      let (held, c) ← op.run u.held c
      pure ⟨c, u.cwd, held⟩
    else
      .error "not legal"

/-- A call with the answers of the disk. -/
structure Turn (S : Type) where
  call : Call S
  found : List (Option Found)
  empty : List Bool
  clusters : List Nat

/-- The state after a call that returns. -/
def Process.next (u : Process S) (t : Turn S) : Option (Process S) :=
  (t.call.run u
    { u.cache with found := t.found, empty := t.empty, clusters := t.clusters }).toOption

/-- A call that returns. -/
def Process.Step (u : Process S) (t : Turn S) (u' : Process S) : Prop := u.next t = some u'

/-- The first process starts in the root. -/
def Process.boot (n rootClus : Nat) : Process (Fin n) where
  cache := { (Users.boot n rootClus).cache with
    ent := update (Users.boot n rootClus).cache.ent .root
      { (Users.boot n rootClus).cache.ent .root with ref := 1 } }
  cwd := .root
  held := [.root]

/-- The entry and the directories above it are not removed. -/
inductive Present (c : Cache S) : Ent S → Prop
  | root : Present c .root
  | entry {s : S} {p : Ent S} (valid : (c.ent (.entry s)).valid = 1)
      (parent : (c.ent (.entry s)).parent = some p) (above : Present c p) : Present c (.entry s)

/-! ### The way down -/

/-- The string for a way from the root. -/
def pathOf (way : List (List UInt8)) : List UInt8 := way.flatMap (0x2f :: ·)

omit [DecidableEq S] in
/-- The loop of `sys_getcwd` spells the way. -/
theorem getcwdLoop_way {c : Cache S} (hc : Distinct c) {e : Ent S} {way : List (List UInt8)}
    (h : Located c e way) {room : Nat} {s s' : List UInt8}
    (hs : getcwdLoop c room e s = some s') : s' = pathOf way ++ s := by
  induction h generalizing room s with
  | root =>
    rw [getcwdLoop, hc.top] at hs
    exact (Option.some.inj hs).symm
  | @entry t p names hp _ _ ih =>
    rw [getcwdLoop, hp] at hs
    dsimp only at hs
    split_ifs at hs
    rw [ih hs]
    unfold pathOf
    simp

private theorem elements_cons_slash (path : List UInt8) :
    elements (0x2f :: path) = elements path := by
  unfold elements
  rw [List.splitOn_cons_eq_if_modifyHead]
  simp

private theorem elements_append {name : List UInt8} (h : IsElem name) (way : List (List UInt8)) :
    elements (name ++ pathOf way) = name :: elements (pathOf way) := by
  have hkeep : ∀ parts : List (List UInt8),
      ((name :: parts).filter (· ≠ [])).map (·.take fat32MaxFilename) =
        name :: (parts.filter (· ≠ [])).map (·.take fat32MaxFilename) := by
    intro parts
    rw [List.filter_cons_of_pos (by simpa using h.ne_nil), List.map_cons,
      List.take_of_length_le h.length]
  cases way with
  | nil =>
    rw [pathOf, List.flatMap_nil, List.append_nil]
    unfold elements
    rw [List.splitOn_eq_singleton h.slash, hkeep]
    rfl
  | cons first way =>
    have hpath : pathOf (first :: way) = 0x2f :: (first ++ pathOf way) := rfl
    rw [hpath, elements_cons_slash]
    unfold elements
    rw [List.splitOn_append_cons_self_of_not_mem h.slash, hkeep]

/-- `skipelem` yields the names of the way again. -/
theorem elements_pathOf {way : List (List UInt8)} (h : ∀ name ∈ way, IsElem name) :
    elements (pathOf way) = way := by
  induction way with
  | nil => rfl
  | cons name way ih =>
    rw [List.forall_mem_cons] at h
    have hpath : pathOf (name :: way) = 0x2f :: (name ++ pathOf way) := rfl
    rw [hpath, elements_cons_slash, elements_append h.1, ih h.2]

omit [DecidableEq S] in
/-- The way consists of names. -/
theorem Located.names {c : Cache S} {e : Ent S} {way : List (List UInt8)}
    (h : Located c e way) : ∀ name ∈ way, IsName name := by
  induction h with
  | root => simp
  | entry _ hname _ ih =>
    intro name hmem
    rcases List.mem_append.mp hmem with hmem | hmem
    · exact ih name hmem
    · rw [List.mem_singleton.mp hmem]
      exact hname

omit [DecidableEq S] in
/-- What `sys_getcwd` stores spells the way. -/
theorem sysGetcwd_way {c : Cache S} (hc : Distinct c) {e : Ent S} {way : List (List UInt8)}
    (h : Located c e way) {copyout : List UInt8 → Bool} {s : List UInt8}
    (hs : sysGetcwd c e copyout = some s) : s.head? = some 0x2f ∧ elements s = way := by
  have helements := elements_pathOf fun name hname ↦ (h.names name hname).toIsElem
  obtain ⟨hpath, -⟩ := Option.filter_eq_some_iff.mp hs
  cases h with
  | root =>
    rw [if_pos hc.top] at hpath
    obtain rfl := Option.some.inj hpath
    exact ⟨rfl, by decide⟩
  | @entry t p names hp hname habove =>
    rw [hp, if_neg (by simp)] at hpath
    rw [getcwdLoop_way hc (.entry hp hname habove) hpath, List.append_nil]
    refine ⟨?_, helements⟩
    cases names with
    | nil => rfl
    | cons first names => rfl

omit [DecidableEq S] in
/-- An entry that is present is valid. -/
theorem Present.valid {c : Cache S} (hc : Distinct c) {e : Ent S} (h : Present c e) :
    (c.ent e).valid = 1 := by
  cases h with
  | root => exact hc.root
  | entry hv => exact hv

/-- An entry that is present has one way, and every slot that caches it is its own. -/
theorem Distinct.hit {c : Cache S} (hc : Distinct c) {s : S} {p : Ent S}
    (hv : (c.ent (.entry s)).valid = 1) (hp : (c.ent (.entry s)).parent = some p)
    (hs : s ∈ c.order) : c.hit p (c.ent (.entry s)).filename = some s := by
  have hself : c.caches p (c.ent (.entry s)).filename s = true := by
    unfold Cache.caches
    rw [decide_eq_true_iff]
    exact ⟨hv, hp, decide_eq_true rfl⟩
  cases hhit : c.hit p (c.ent (.entry s)).filename with
  | none => exact absurd hself (List.find?_eq_none.mp hhit s hs)
  | some t =>
    have ht := List.find?_some hhit
    unfold Cache.caches at ht
    rw [decide_eq_true_iff] at ht
    rw [hc.unique t s p ht.1 hv ht.2.1 hp ht.2.2]

/-- The cache with one more reference. -/
def Cache.dup (c : Cache S) (e : Ent S) : Cache S :=
  { c with ent := update c.ent e { c.ent e with ref := (c.ent e).ref + 1 } }

/-- The cache with one reference less. -/
def Cache.drop (c : Cache S) (e : Ent S) : Cache S :=
  { c with ent := update c.ent e { c.ent e with ref := (c.ent e).ref - 1 } }

private theorem Cache.dup_ref (c : Cache S) (e x : Ent S) :
    ((c.dup e).ent x).ref = (c.ent x).ref + if x = e then 1 else 0 := by
  unfold Cache.dup
  dsimp only
  by_cases hx : x = e
  · rw [hx, update_self, if_pos rfl]
  · rw [update_of_ne hx, if_neg hx, add_zero]

private theorem Cache.dup_alike (c : Cache S) (e : Ent S) : Alike c (c.dup e) :=
  alike_update c e (f := fun x ↦ { x with ref := x.ref + 1 })
    fun _ ↦ ⟨rfl, rfl, rfl, rfl, rfl, rfl⟩

/-- The reference moves from one entry to the next. -/
theorem Cache.dup_drop (c : Cache S) (p e : Ent S) : ((c.dup p).dup e).drop p = c.dup e := by
  have hent : ∀ x, (((c.dup p).dup e).drop p).ent x = (c.dup e).ent x := by
    intro x
    unfold Cache.drop Cache.dup
    dsimp only
    by_cases hp : p = e
    · subst hp
      by_cases hx : x = p
      · subst hx
        simp
      · simp [update_of_ne hx]
    · by_cases hx : x = p
      · subst hx
        simp [update_of_ne hp]
      · by_cases he : x = e
        · subst he
          simp [update_of_ne hx]
        · simp [update_of_ne hx, update_of_ne he]
  exact congrArg (fun f ↦ { c with ent := f }) (funext hent)

section

variable {α β : Type} {c c' : Cache S} {e : Ent S}

omit [DecidableEq S] in
private theorem bind_of_ok {x : Cached S α} {f : α → Cached S β} {a : α} (h : x c = .ok (a, c')) :
    (x >>= f) c = f a c' := by
  change (x c >>= fun r ↦ f r.1 r.2) = _
  rw [h]
  rfl

omit [DecidableEq S] in
private theorem elock_run (h : 0 < (c.ent e).ref) : elock e c = .ok ((), c) := by
  unfold elock
  rw [bind_of_ok rfl, if_neg (by omega)]
  rfl

omit [DecidableEq S] in
private theorem eunlock_run (h : 0 < (c.ent e).ref) : eunlock e c = .ok ((), c) := by
  unfold eunlock
  rw [bind_of_ok rfl, if_neg (by omega)]
  rfl

/-- `eput` when other references are left. -/
theorem eput_run (h : 1 < (c.ent e).ref) : eput e c = .ok ((), c.drop e) := by
  unfold eput
  rw [bind_of_ok rfl, eputLoop, bind_of_ok rfl]
  cases e with
  | root => rfl
  | entry s =>
    dsimp only
    rw [if_neg (by omega)]
    rfl

end

/-- `dirlookup` finds the slot of an entry that is cached and in use. -/
theorem dirlookup_run {c : Cache S} (hc : Distinct c) {s : S} {p : Ent S}
    (hv : (c.ent (.entry s)).valid = 1) (hp : (c.ent (.entry s)).parent = some p)
    (hs : s ∈ c.order) (hr : 0 < (c.ent (.entry s)).ref)
    (hname : IsName (c.ent (.entry s)).filename) (hpv : (c.ent p).valid = 1) :
    dirlookup p (c.ent (.entry s)).filename (c.dup p) =
      .ok (some (.entry s), (c.dup p).dup (.entry s)) := by
  have hdup := c.dup_alike p
  have hc' := hc.alike hdup
  have hhit : (c.dup p).hit p (c.ent (.entry s)).filename = some s := by
    rw [← hdup.name]
    apply hc'.hit
    · rw [hdup.valid, hv]
    · rw [hdup.parent, hp]
    · exact hs
  have hdir := hc'.dir s p (by rw [hdup.valid, hv]) (by rw [hdup.parent, hp])
  have hdot : sameName (c.ent (.entry s)).filename [dotCh] = false := by
    rw [Bool.eq_false_iff]
    intro hsame
    exact hname.dot (eq_of_sameName hname.length (by decide) hsame)
  have hdots : sameName (c.ent (.entry s)).filename [dotCh, dotCh] = false := by
    rw [Bool.eq_false_iff]
    intro hsame
    exact hname.dots (eq_of_sameName hname.length (by decide) hsame)
  have hpos : ((c.dup p).ent (.entry s)).ref ≠ 0 := by
    rw [Cache.dup_ref]
    omega
  have heget : eget p (c.ent (.entry s)).filename (c.dup p) =
      .ok (s, (c.dup p).dup (.entry s)) := by
    unfold eget
    rw [bind_of_ok rfl, hhit]
    dsimp only
    rw [bind_of_ok (show edup (.entry s) (c.dup p) = .ok ((), (c.dup p).dup (.entry s)) from rfl)]
    unfold doIf
    rw [if_neg hpos]
    rfl
  have hvalid : (((c.dup p).dup (.entry s)).ent (.entry s)).valid = 1 := by
    rw [((c.dup p).dup_alike _).valid, hdup.valid, hv]
  unfold dirlookup
  rw [bind_of_ok rfl, if_neg (by rw [hdir]; simp), hdot, if_neg (by simp), hdots,
    if_neg (by simp), if_neg (by rw [hdup.valid, hpv]; simp), bind_of_ok heget, bind_of_ok rfl,
    if_pos hvalid]
  rfl

/-- One round of the loop of `lookup_path` goes down to the entry. -/
theorem lookupElems_run {c : Cache S} (hc : Distinct c) {s : S} {p : Ent S}
    (hv : (c.ent (.entry s)).valid = 1) (hp : (c.ent (.entry s)).parent = some p)
    (hs : s ∈ c.order) (hr : 0 < (c.ent (.entry s)).ref)
    (hname : IsName (c.ent (.entry s)).filename) (hpv : (c.ent p).valid = 1)
    (hpr : 0 < (c.ent p).ref) (rest : List (List UInt8)) :
    lookupElems false ((c.ent (.entry s)).filename :: rest) p (c.dup p) =
      lookupElems false rest (.entry s) (c.dup (.entry s)) := by
  have hdup := c.dup_alike p
  have hdir := (hc.alike hdup).dir s p (by rw [hdup.valid, hv]) (by rw [hdup.parent, hp])
  have hone : 0 < ((c.dup p).ent p).ref := by
    rw [Cache.dup_ref]
    omega
  have htwo : 1 < (((c.dup p).dup (.entry s)).ent p).ref := by
    rw [Cache.dup_ref, Cache.dup_ref, if_pos rfl]
    omega
  rw [lookupElems, bind_of_ok (elock_run hone), bind_of_ok rfl, if_neg (by rw [hdir]; simp),
    if_neg (by simp), bind_of_ok (dirlookup_run hc hv hp hs hr hname hpv)]
  dsimp only
  rw [bind_of_ok (eunlock_run (by omega)), bind_of_ok (eput_run htwo), Cache.dup_drop]

/-- The loop of `lookup_path` goes down the way of an entry that is held. -/
theorem lookupElems_way [Fintype S] {d : Ent S → Int} {c : Cache S} (h : Sound d c)
    (hd : ∀ x, 0 ≤ d x) (hc : Distinct c) {e : Ent S} {way : List (List UInt8)}
    (hway : Located c e way) (hpresent : Present c e) (he : 0 < (c.ent e).ref)
    (rest : List (List UInt8)) :
    lookupElems false (way ++ rest) .root (c.dup .root) = lookupElems false rest e (c.dup e) := by
  induction hway generalizing rest with
  | root => rfl
  | @entry s p names hp hname _ ih =>
    cases hpresent with
    | entry hv hp' habove =>
      obtain rfl := Option.some.inj (hp.symm.trans hp')
      have hpr := h.parent_pos hd he (by rw [hv]; decide) hp
      rw [List.append_assoc, ih habove hpr]
      exact lookupElems_run hc hv hp (h.shape.all s) he hname (habove.valid hc) hpr rest

/-! ### Runs -/

variable [Fintype S]

/-- The references of all are counted, and the directory of the process lies on a way from the
root. -/
structure Process.Sound (u : Process S) : Prop where
  users : Users.Sound ⟨u.cache, u.held⟩
  distinct : Distinct u.cache
  own : u.cwd ∈ u.held
  way : ∃ way, Located u.cache u.cwd way

private theorem sysMkdir_spec {d : Ent S → Int} {c : Cache S} (h : Sound d c) (hd : ∀ x, 0 ≤ d x)
    (hs : Settled c) (hc : Distinct c) {cwd : Ent S} (hcwd : cwd = .root ∨ 0 < (c.ent cwd).ref)
    (path : List UInt8) (off : Nat) :
    Ensures (sysMkdir cwd path off) c fun _ c' ↦ Sound d c' ∧ Settled c' ∧ Spelled d c c' := by
  unfold sysMkdir
  apply ((create_sound h hd hs path .dir 0 0 off hcwd).and
    (create_names h hd hs hc path .dir 0 0 off hcwd)).bind
  rintro r c1 ⟨⟨h1, hs1⟩, hspelled1⟩
  cases r with
  | none =>
    refine ensures_pure.mpr ⟨h1.congr ?_, hs1, hspelled1⟩
    intro x
    rw [holds_none, add_zero]
  | some e =>
    dsimp only
    apply ensures_eunlock
    apply (eput_sound hd h1).bind
    rintro _ c3 ⟨h3, hle3, halike3⟩
    exact ensures_pure.mpr ⟨h3, hs1.alike halike3 hle3,
      hspelled1.trans (halike3.spelled hspelled1.distinct)⟩

/-- `sys_chdir` gives the reference to the old directory for the one to the new directory. -/
theorem sysChdir_spec {d : Ent S → Int} {c : Cache S} {cwd : Ent S}
    (h : Sound (fun x ↦ d x + holds (some cwd) x) c) (hd : ∀ x, 0 ≤ d x) (hs : Settled c)
    (hc : Distinct c) (hway : ∃ way, Located c cwd way) (path : List UInt8) :
    Ensures (sysChdir cwd path) c fun r c' ↦ Settled c' ∧ Distinct c' ∧
      Sound (fun x ↦ d x + holds (some (r.getD cwd)) x) c' ∧
        ∃ way, Located c' (r.getD cwd) way := by
  have hdh := Sound.nonneg_add (e := cwd) hd
  have hpos : 0 < d cwd + holds (some cwd) cwd := by
    rw [holds_self]
    have := hd cwd
    omega
  have hcwd : cwd = .root ∨ 0 < (c.ent cwd).ref := .inr (h.ref_pos hpos)
  obtain ⟨way, hat⟩ := hway
  unfold sysChdir
  apply ((ename_sound h hdh hs path hcwd).and (ename_names h hdh hs hc path hcwd)).bind
  rintro r c1 ⟨⟨h1, hs1⟩, hspelled1, hat1⟩
  have hold := hspelled1.located cwd way hpos hat
  cases r with
  | none =>
    refine ensures_pure.mpr ⟨hs1, hspelled1.distinct, h1.congr ?_, way, hold⟩
    intro x
    rw [holds_none, add_zero]
    rfl
  | some e =>
    dsimp only
    apply (elock_spec c1 e).bind
    rintro _ c2 ⟨rfl, -⟩
    rw [ensures_bind, ensures_get, ensures_ite]
    constructor
    · intro _
      apply ensures_eunlock
      apply (eput_sound hdh h1).bind
      rintro _ c4 ⟨h4, hle4, halike4⟩
      exact ensures_pure.mpr ⟨hs1.alike halike4 hle4, hspelled1.distinct.alike halike4, h4, way,
        hold.alike halike4⟩
    · intro _
      apply ensures_eunlock
      rw [ensures_bind]
      have h3 : Sound (fun x ↦ (d x + holds (some e) x) + holds (some cwd) x) c2 :=
        h1.congr fun x ↦ by omega
      apply (eput_sound (Sound.nonneg_add hd) h3).mono
      rintro _ c4 ⟨h4, hle4, halike4⟩
      obtain ⟨way', hnew⟩ := hat1 ⟨way, hat⟩ e rfl
      exact ensures_pure.mpr ⟨hs1.alike halike4 hle4, hspelled1.distinct.alike halike4, h4, way',
        hnew.alike halike4⟩

/-- An operation of anybody leaves the directory of the process where it is. -/
theorem Op.run_names {u : Process S} (h : u.Sound) {op : Op S} (hlegal : op.Legal u.held)
    (hspares : op.Spares u.cwd u.held) :
    Ensures (op.run u.held) u.cache fun held c' ↦
      Spelled (fun e ↦ (u.held.count e : Int)) u.cache c' ∧ u.cwd ∈ held := by
  have hd : ∀ e, (0 : Int) ≤ (u.held.count e : Int) := fun e ↦ Int.natCast_nonneg _
  obtain ⟨⟨hsound, hs⟩, hc, hown, -⟩ := h
  have hcwd : ∀ {cwd}, cwd = .root ∨ cwd ∈ u.held → cwd = .root ∨ 0 < (u.cache.ent cwd).ref :=
    fun hin ↦ Users.sound_cwd ⟨hsound, hs⟩ hin
  cases op with
  | lookup cwd path =>
    change Ensures (ename cwd path >>= fun r ↦ pure (r.toList ++ u.held)) u.cache _
    simp only [ensures_bind, ensures_pure]
    apply (ename_names hsound hd hs hc path (hcwd hlegal)).mono
    rintro r c' ⟨h', -⟩
    exact ⟨h', List.mem_append_right _ hown⟩
  | find dp name =>
    change Ensures (dirlookup dp name >>= fun r ↦ pure (r.toList ++ u.held)) u.cache _
    simp only [ensures_bind, ensures_pure]
    have hdp : 0 < (u.cache.ent dp).ref := by
      apply hsound.ref_pos
      exact_mod_cast List.count_pos_iff.mpr hlegal
    apply (dirlookup_names hsound hd hs hc hspares hdp).mono
    rintro r c' ⟨h', -⟩
    exact ⟨h', List.mem_append_right _ hown⟩
  | create cwd path kind major minor off =>
    change Ensures (Ecache.create cwd path kind major minor off >>= fun r ↦
      pure (r.toList ++ u.held)) u.cache _
    simp only [ensures_bind, ensures_pure]
    apply (create_names hsound hd hs hc path kind major minor off (hcwd hlegal)).mono
    intro r c' h'
    exact ⟨h', List.mem_append_right _ hown⟩
  | remove cwd path =>
    change Ensures (sysRemove cwd path >>= fun _ ↦ pure u.held) u.cache _
    simp only [ensures_bind, ensures_pure]
    apply (sysRemove_names hsound hd hs hc path (hcwd hlegal)).mono
    exact fun _ c' h' ↦ ⟨h', hown⟩
  | dup e =>
    change Ensures (edup e >>= fun _ ↦ pure (e :: u.held)) u.cache _
    simp only [ensures_bind, ensures_pure]
    apply (edup_alike u.cache e).mono
    exact fun _ c' h' ↦ ⟨h'.spelled hc, List.mem_cons_of_mem _ hown⟩
  | put e =>
    change Ensures (eput e >>= fun _ ↦ pure (u.held.erase e)) u.cache _
    simp only [ensures_bind, ensures_pure]
    apply (eput_sound (fun _ ↦ Int.natCast_nonneg _) (hsound.congr (count_erase hlegal))).mono
    rintro _ c' ⟨-, -, h'⟩
    refine ⟨h'.spelled hc, ?_⟩
    change e ∈ u.held.erase u.cwd at hspares
    by_cases he : e = u.cwd
    · rw [he] at hspares ⊢
      exact hspares
    · exact (List.mem_erase_of_ne (Ne.symm he)).mpr hown

/-- A call keeps the process sound. -/
theorem Process.sound_next {u u' : Process S} {t : Turn S} (h : u.Sound)
    (hstep : u.Step t u') : u'.Sound := by
  unfold Process.Step Process.next at hstep
  set c : Cache S :=
    { u.cache with found := t.found, empty := t.empty, clusters := t.clusters } with hc
  have hsame : Same u.cache c := .of_ent rfl rfl
  have hd : ∀ held : List (Ent S), ∀ e, (0 : Int) ≤ (held.count e : Int) :=
    fun _ _ ↦ Int.natCast_nonneg _
  obtain ⟨way, hat⟩ := h.way
  have hsound := h.users.1.same hsame
  have hsettled := h.users.2.same hsame
  have hdistinct := h.distinct.alike hsame.toAlike
  have hat' := hat.alike hsame.toAlike
  have hcount : 0 < (u.held.count u.cwd : Int) := by
    exact_mod_cast List.count_pos_iff.mpr h.own
  cases hrun : t.call.run u c with
  | error msg =>
    rw [hrun] at hstep
    cases hstep
  | ok v =>
    rw [hrun] at hstep
    obtain rfl := Option.some.inj hstep
    cases hcall : t.call with
    | mkdir path off =>
      rw [hcall] at hrun
      obtain ⟨⟨b, c'⟩, hmk, hend⟩ := bind_eq_ok hrun
      obtain rfl := Except.ok.inj hend
      obtain ⟨h', hs', hspelled⟩ := (sysMkdir_spec hsound (hd _) hsettled hdistinct
        (.inr (hsound.ref_pos hcount)) path off).of_ok b c' hmk
      exact ⟨⟨h', hs'⟩, hspelled.distinct, h.own, way, hspelled.located _ _ hcount hat'⟩
    | chdir path =>
      rw [hcall] at hrun
      obtain ⟨⟨r, c'⟩, hch, hend⟩ := bind_eq_ok hrun
      have hsound' := hsound.congr (count_erase h.own)
      obtain ⟨hs', hdistinct', h', way', hnew⟩ := (sysChdir_spec hsound' (hd _) hsettled hdistinct
        ⟨way, hat'⟩ path).of_ok r c' hch
      cases r with
      | none =>
        obtain rfl := Except.ok.inj hend
        exact ⟨⟨h'.congr fun x ↦ (count_erase h.own x).symm, hs'⟩, hdistinct', h.own, way', hnew⟩
      | some e =>
        obtain rfl := Except.ok.inj hend
        refine ⟨⟨h'.congr ?_, hs'⟩, hdistinct', List.mem_cons_self, way', hnew⟩
        exact count_cons (u.held.erase u.cwd) (some e)
    | other op =>
      rw [hcall] at hrun
      change (if op.Legal u.held ∧ op.Spares u.cwd u.held then _ else _) = _ at hrun
      split_ifs at hrun with hlegal
      obtain ⟨⟨held, c'⟩, hop, hend⟩ := bind_eq_ok hrun
      obtain rfl := Except.ok.inj hend
      have hu : Process.Sound ⟨c, u.cwd, u.held⟩ :=
        ⟨⟨hsound, hsettled⟩, hdistinct, h.own, way, hat'⟩
      have husers := (Op.run_sound (u := ⟨c, u.held⟩) hu.users hlegal.1).of_ok held c' hop
      obtain ⟨hspelled, hown⟩ := (Op.run_names hu hlegal.1 hlegal.2).of_ok held c' hop
      exact ⟨husers, hspelled.distinct, hown, way, hspelled.located _ _ hcount hat'⟩

/-- The process is sound at first. -/
theorem Process.sound_boot (n rootClus : Nat) : (Process.boot n rootClus).Sound := by
  obtain ⟨hsound, hsettled⟩ := Users.sound_boot n rootClus
  obtain ⟨h, halike, -, hsame⟩ := (edup_sound hsound (e := .root) (.inl rfl)).of_ok ()
    (Process.boot n rootClus).cache rfl
  refine ⟨⟨h.congr ?_, ?_⟩, ?_, List.mem_singleton_self _, [], .root⟩
  · exact count_cons [] (some Ent.root)
  · apply hsettled.dup halike
    intro s hs
    rw [hsame _ (by simp)] at hs
    exact .inl hs
  · have hdir : ((Users.boot n rootClus).cache.ent .root).isDir = true := by
      change decide ((0x14 : UInt8) &&& attrDirectory ≠ 0) = true
      decide
    refine Distinct.alike ⟨rfl, hdir, rfl, ?_, ?_, ?_⟩ halike
    · intro s hv
      exact absurd rfl hv
    · intro s p hv
      cases hv
    · intro s t p hv
      cases hv

/-- The process is sound after every run. -/
theorem Process.sound_of_runs {n rootClus : Nat} {ts : List (Turn (Fin n))} {u : Process (Fin n)}
    (h : Runs Process.Step (Process.boot n rootClus) ts u) : u.Sound :=
  Runs.invariant (fun u ↦ Process.Sound u) (fun _ _ _ hs hstep ↦ Process.sound_next hs hstep) h
    (Process.sound_boot n rootClus)

/-- After every run, when the directory of the process is not removed: the string that
`sys_getcwd` stores is absolute, and its lookup, from any directory, returns the entry again. -/
theorem getcwd_ename {n rootClus : Nat} {ts : List (Turn (Fin n))} {u : Process (Fin n)}
    (h : Runs Process.Step (Process.boot n rootClus) ts u) (hpresent : Present u.cache u.cwd)
    {copyout : List UInt8 → Bool} {s : List UInt8}
    (hs : sysGetcwd u.cache u.cwd copyout = some s) :
    s.head? = some 0x2f ∧ ∀ cwd, ∃ c', ename cwd s u.cache = .ok (some u.cwd, c') := by
  obtain ⟨⟨hsound, -⟩, hc, hown, way, hat⟩ := Process.sound_of_runs h
  have hpos : 0 < (u.cache.ent u.cwd).ref := by
    apply hsound.ref_pos
    exact_mod_cast List.count_pos_iff.mpr hown
  obtain ⟨hhead, hway⟩ := sysGetcwd_way hc hat hs
  refine ⟨hhead, fun cwd ↦ ⟨u.cache.dup u.cwd, ?_⟩⟩
  have hdown := lookupElems_way hsound (fun _ ↦ Int.natCast_nonneg _) hc hat hpresent hpos []
  rw [List.append_nil] at hdown
  obtain ⟨path, rfl⟩ : ∃ path, s = 0x2f :: path := by
    cases s with
    | nil => cases hhead
    | cons b path => exact ⟨path, by rw [Option.some.inj hhead]⟩
  have hlookup : lookupPath cwd (0x2f :: path) false u.cache =
      .ok (some (u.cwd, []), u.cache.dup u.cwd) := by
    unfold lookupPath
    dsimp only
    rw [if_pos rfl, hway]
    rw [bind_of_ok (show edup .root u.cache = .ok ((), u.cache.dup .root) from rfl), hdown]
    rfl
  unfold ename
  rw [bind_of_ok hlookup]
  rfl

/-- Directories `/a` and `/a/b` are made, and the process goes to the second one. -/
theorem getcwd_ename_small : ∃ u : Process (Fin 4), ∃ s c',
    sysGetcwd u.cache u.cwd (fun _ ↦ true) = some s ∧ u.cwd ≠ .root ∧ s.head? = some 0x2f ∧
      ename .root s u.cache = .ok (some u.cwd, c') := by
  let ts : List (Turn (Fin 4)) := [⟨.mkdir [0x2f, 0x61] 0, [none], [], [3]⟩,
    ⟨.chdir [0x61], [], [], []⟩, ⟨.mkdir [0x2e, 0x2f, 0x62] 0, [none], [], [4]⟩,
    ⟨.chdir [0x2e, 0x2e, 0x2f, 0x61, 0x2f, 0x62], [], [], []⟩]
  obtain ⟨u, hrun, hcheck⟩ := exists_runs
    (show ∀ u t u', Process.next u t = some u' → Process.Step u t u' from fun _ _ _ ht ↦ ht)
    (Process.boot 4 2) ts (fun u ↦
      decide (u.cwd = .entry 1 ∧ (u.cache.ent (.entry 1)).valid = 1 ∧
        (u.cache.ent (.entry 1)).parent = some (.entry 0) ∧
        (u.cache.ent (.entry 0)).valid = 1 ∧ (u.cache.ent (.entry 0)).parent = some .root ∧
        sysGetcwd u.cache u.cwd (fun _ ↦ true) = some [0x2f, 0x61, 0x2f, 0x62]))
    (by decide +kernel)
  obtain ⟨hcwd, hv1, hp1, hv0, hp0, hs⟩ := of_decide_eq_true hcheck
  have hpresent : Present u.cache u.cwd := by
    rw [hcwd]
    exact .entry hv1 hp1 (.entry hv0 hp0 .root)
  obtain ⟨hhead, hname⟩ := getcwd_ename hrun hpresent hs
  obtain ⟨c', hc'⟩ := hname .root
  exact ⟨u, _, c', hs, by rw [hcwd]; simp, hhead, hc'⟩

end Xv6K210.Ecache
