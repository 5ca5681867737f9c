import Xv6K210.Buffer.Concurrent
import Xv6K210.Buffer.Refinement

/-!
# One buffer for a sector

In runs without a race of two misses no sector has two buffers, and what a process
reads is what was written last.
-/

namespace Xv6K210.Buffer

open Xv6K210.Base Prog Function

variable {P B D : Type}

section

variable [DecidableEq B] [Fintype P] [DecidableEq P] {s : Kernel P B D} {p : P} {pc : Pc B}
  {c' : Bcache B D}

/-! ### Contents -/

/-- The sector that a process asks `bget` for. -/
def Pc.asked : Pc B → Option (Nat × Nat)
  | .searching dev blockno _ => some (dev, blockno)
  | .inserting dev blockno _ => some (dev, blockno)
  | _ => none

/-- The buffers hold what the disk holds, when a sector is asked for under one device number. -/
structure Kernel.Current (devOf : Nat → Nat) (s : Kernel P B D) : Prop where
  asked : ∀ p k, (s.pc p).asked = some k → k.1 = devOf k.2
  dev : ∀ b, (s.cache.buf b).Used → (s.cache.buf b).dev = devOf (s.cache.buf b).blockno
  data : ∀ b, (s.cache.buf b).valid = true →
    (s.cache.buf b).data = s.cache.disk (s.cache.buf b).blockno
  filled : ∀ p dev blockno b, s.pc p = .has .holding dev blockno b →
    (s.cache.buf b).valid = true

/-- The disk after a step: a write puts its data into its sector. -/
def Kernel.put (s : Kernel P B D) (e : P × Act D) : Nat → D :=
  match s.pc e.1, e.2 with
  | .has .holding _ blockno _, .write d => update s.cache.disk blockno d
  | _, _ => s.cache.disk

variable {devOf : Nat → Nat}

/-- A region after which the buffers that are left hold what they held. -/
theorem Kernel.Current.keep (h : s.Inv) (hc : s.Current devOf) (hdisk : c'.disk = s.cache.disk)
    (hasked : ∀ k, pc.asked = some k → k.1 = devOf k.2)
    (hnew : ∀ dev blockno b, pc ≠ .has .holding dev blockno b)
    (hused : ∀ x, (c'.buf x).Used → (c'.buf x).dev = devOf (c'.buf x).blockno)
    (hvalid : ∀ x, (c'.buf x).valid = true → (s.cache.buf x).valid = true ∧
      (c'.buf x).data = (s.cache.buf x).data ∧ (c'.buf x).blockno = (s.cache.buf x).blockno)
    (hkeep : ∀ x, 0 < (s.cache.buf x).refcnt → (s.cache.buf x).valid = true →
      (c'.buf x).valid = true) :
    Kernel.Current devOf ⟨c', update s.pc p pc⟩ := by
  refine ⟨?_, hused, ?_, ?_⟩
  · intro q k hq
    dsimp only at hq
    by_cases hqp : q = p
    · rw [hqp, update_self] at hq
      exact hasked k hq
    · rw [update_of_ne hqp] at hq
      exact hc.asked q k hq
  · intro x hx
    obtain ⟨hold, hdata, hblock⟩ := hvalid x hx
    dsimp only
    rw [hdata, hblock, hdisk]
    exact hc.data x hold
  · intro q dev blockno x hq
    dsimp only at hq
    by_cases hqp : q = p
    · rw [hqp, update_self] at hq
      exact absurd hq (hnew dev blockno x)
    · rw [update_of_ne hqp] at hq
      apply hkeep x _ (hc.filled q dev blockno x hq)
      apply h.user_pos (p := q)
      rw [hq]
      rfl

/-- The same, when one buffer changes in other fields. -/
theorem Kernel.Current.setBuf (h : s.Inv) (hc : s.Current devOf) {b : B} {x : Buf D}
    (hbuf : c'.buf = update s.cache.buf b x) (hdisk : c'.disk = s.cache.disk)
    (hasked : ∀ k, pc.asked = some k → k.1 = devOf k.2)
    (hnew : ∀ dev blockno b, pc ≠ .has .holding dev blockno b)
    (hused : x.Used → x.dev = devOf x.blockno) (hvalid : x.valid = (s.cache.buf b).valid)
    (hdata : x.data = (s.cache.buf b).data) (hblock : x.blockno = (s.cache.buf b).blockno) :
    Kernel.Current devOf ⟨c', update s.pc p pc⟩ := by
  apply Kernel.Current.keep h hc hdisk hasked hnew
  · intro y hu
    rw [hbuf] at hu ⊢
    by_cases hy : y = b
    · rw [hy, update_self] at hu ⊢
      exact hused hu
    · rw [update_of_ne hy] at hu ⊢
      exact hc.dev y hu
  · intro y hv
    rw [hbuf] at hv ⊢
    by_cases hy : y = b
    · rw [hy, update_self] at hv ⊢
      exact ⟨hvalid ▸ hv, hdata, hblock⟩
    · rw [update_of_ne hy] at hv ⊢
      exact ⟨hv, rfl, rfl⟩
  · intro y _ hv
    rw [hbuf]
    by_cases hy : y = b
    · rw [hy] at hv
      rw [hy, update_self, hvalid, hv]
    · rw [update_of_ne hy, hv]

/-- Marks leave the contents current. -/
theorem Kernel.Current.marked (h : s.Inv) (hc : s.Current devOf) (hm : Marked s.cache c')
    (hasked : ∀ k, pc.asked = some k → k.1 = devOf k.2)
    (hnew : ∀ dev blockno b, pc ≠ .has .holding dev blockno b) :
    Kernel.Current devOf ⟨c', update s.pc p pc⟩ := by
  apply Kernel.Current.keep h hc hm.disk hasked hnew
  · intro x hu
    rw [hm.used] at hu
    rw [hm.dev, hm.blockno]
    exact hc.dev x hu
  · intro x hv
    rw [hm.valid] at hv
    exact ⟨hv, hm.data x, hm.blockno x⟩
  · intro x _ hv
    rw [hm.valid, hv]

/-- The disk read of `bread` brings the sector in. -/
theorem fill_current (h : s.Inv) (hc : s.Current devOf) {dev blockno : Nat} {b : B}
    (hpc : s.pc p = .has .locked dev blockno b) :
    Ensures (fill b) s.cache fun _ c' ↦
      Kernel.Current devOf ⟨c', update s.pc p (.has .holding dev blockno b)⟩ ∧
        c'.disk = s.cache.disk := by
  have hpos := h.user_pos (p := p) (b := b) (by rw [hpc]; rfl)
  have hkeep : ∀ {c' : Bcache B D}, c'.disk = s.cache.disk →
      (∀ x, (c'.buf x).dev = (s.cache.buf x).dev ∧
        (c'.buf x).blockno = (s.cache.buf x).blockno) →
      (∀ x, x ≠ b → c'.buf x = s.cache.buf x) → (c'.buf b).valid = true →
      (c'.buf b).data = s.cache.disk (s.cache.buf b).blockno →
        Kernel.Current devOf ⟨c', update s.pc p (.has .holding dev blockno b)⟩ := by
    intro c' hdisk hkeys hrest hvalid hdata
    refine ⟨?_, ?_, ?_, ?_⟩
    · intro q k hq
      dsimp only at hq
      by_cases hqp : q = p
      · rw [hqp, update_self] at hq
        cases hq
      · rw [update_of_ne hqp] at hq
        exact hc.asked q k hq
    · intro x hu
      dsimp only at hu ⊢
      rw [(hkeys x).1, (hkeys x).2]
      apply hc.dev
      by_cases hx : x = b
      · rw [hx]
        exact .inl hpos
      · rwa [hrest x hx] at hu
    · intro x hv
      dsimp only at hv ⊢
      rw [hdisk, (hkeys x).2]
      by_cases hx : x = b
      · rw [hx, hdata]
      · rw [hrest x hx] at hv ⊢
        exact hc.data x hv
    · intro q dev' blockno' x hq
      dsimp only at hq ⊢
      by_cases hx : x = b
      · rw [hx, hvalid]
      · rw [hrest x hx]
        by_cases hqp : q = p
        · rw [hqp, update_self] at hq
          cases hq
          exact absurd rfl hx
        · rw [update_of_ne hqp] at hq
          exact hc.filled q dev' blockno' x hq
  unfold fill diskRead Buffer.setBuf
  simp only [ensures_bind, ensures_get, ensures_doIf, ensures_modify]
  refine ⟨fun _ ↦ ⟨?_, trivial⟩, fun hv ↦ ⟨?_, trivial⟩⟩
  · rw [update_self, update_idem]
    apply hkeep
    · rfl
    · intro x
      dsimp only
      by_cases hx : x = b
      · rw [hx, update_self]
        exact ⟨rfl, rfl⟩
      · rw [update_of_ne hx]
        exact ⟨rfl, rfl⟩
    · exact fun x hx ↦ update_of_ne hx _ _
    · dsimp only
      rw [update_self]
    · dsimp only
      rw [update_self]
  · have hvalid : (s.cache.buf b).valid = true := by simpa using hv
    exact hkeep rfl (fun _ ↦ ⟨rfl, rfl⟩) (fun _ _ ↦ rfl) hvalid (hc.data b hvalid)

/-- A write reaches the only buffer of the sector, and the disk. -/
theorem write_current (h : s.Inv) (hc : s.Current devOf) {dev blockno : Nat} {b : B}
    (hpc : s.pc p = .has .holding dev blockno b) (d : D) :
    Ensures (modifyWrite b d) s.cache fun _ c' ↦
      Kernel.Current devOf ⟨c', update s.pc p (.has .holding dev blockno b)⟩ ∧
        c'.disk = update s.cache.disk blockno d := by
  have hpos := h.user_pos (p := p) (b := b) (by rw [hpc]; rfl)
  obtain ⟨-, hblock⟩ := h.key p .holding dev blockno b hpc
  have hself : update s.pc p (.has .holding dev blockno b) = s.pc := by
    rw [← hpc]
    exact update_eq_self p _
  unfold modifyWrite bwrite diskWrite Buffer.setBuf
  simp only [ensures_bind, ensures_get, ensures_modify, ensures_ite, update_self]
  refine ⟨fun _ ↦ ensures_halt, fun _ ↦ ⟨?_, by rw [hblock]⟩⟩
  rw [hself]
  set x : Buf D := { s.cache.buf b with data := d } with hx
  rw [hblock]
  have hat : update s.cache.buf b x b = x := update_self _ _ _
  have hrest : ∀ y, y ≠ b → update s.cache.buf b x y = s.cache.buf y :=
    fun y hy ↦ update_of_ne hy _ _
  refine ⟨hc.asked, ?_, ?_, ?_⟩
  · intro y hu
    dsimp only at hu ⊢
    by_cases hy : y = b
    · rw [hy, hat]
      exact hc.dev b (.inl hpos)
    · rw [hrest y hy] at hu ⊢
      exact hc.dev y hu
  · intro y hv
    dsimp only at hv ⊢
    by_cases hy : y = b
    · rw [hy, hat]
      change d = update s.cache.disk blockno d (s.cache.buf b).blockno
      rw [hblock, update_self]
    · rw [hrest y hy] at hv ⊢
      rw [update_of_ne, hc.data y hv]
      intro hsame
      apply hy
      apply h.shelves.unique (.inr hv) (.inl hpos)
      have hblocks : (s.cache.buf y).blockno = (s.cache.buf b).blockno := by rw [hsame, hblock]
      refine ⟨?_, hblocks⟩
      rw [hc.dev y (.inr hv), hc.dev b (.inl hpos), hblocks]
  · intro q dev' blockno' y hq
    have hv := hc.filled q dev' blockno' y hq
    dsimp only
    by_cases hy : y = b
    · rw [hy] at hv
      rw [hy, hat]
      exact hv
    · rw [hrest y hy, hv]

/-- A region keeps the contents current, and changes the disk by a write only. -/
theorem Kernel.Current.step [Fintype B] (h : s.Inv) (hc : s.Current devOf) {e : P × Act D}
    (hdev : ∀ dev blockno, e.2 = .bread dev blockno → dev = devOf blockno) {s' : Kernel P B D}
    (hstep : Kernel.Step (Fintype.card B) s e s') :
    s'.Current devOf ∧ s'.cache.disk = s.put e := by
  obtain ⟨x, pc, c', hmoves, hx, rfl⟩ := hstep.moves
  obtain ⟨p, act⟩ := e
  suffices hens : Ensures x s.cache fun pc c' ↦
      Kernel.Current devOf ⟨c', update s.pc p pc⟩ ∧ c'.disk = s.put (p, act) from
    hens.of_ok pc c' hx
  unfold Kernel.put
  dsimp only at hmoves hdev ⊢
  generalize hpc : s.pc p = pc0 at hmoves ⊢
  cases hmoves with
  | lookup dev blockno =>
    have hknown := hdev dev blockno rfl
    apply (lookup_spec h.shelves.lists dev blockno).bind
    intro r c1 hr
    cases r with
    | none =>
      obtain ⟨rfl, -⟩ := hr
      refine ensures_pure.mpr ⟨?_, rfl⟩
      apply hc.marked h (.refl _)
      · rintro k ⟨⟩
        exact hknown
      · rintro _ _ _ ⟨⟩
    | some b =>
      obtain ⟨-, hb, hblock, -, rfl⟩ := hr
      refine ensures_pure.mpr ⟨?_, rfl⟩
      refine hc.setBuf h (b := b) rfl rfl (by rintro _ ⟨⟩) (by rintro _ _ _ ⟨⟩) ?_ rfl rfl rfl
      intro _
      dsimp only
      rw [hb, hblock, hknown]
  | detach dev blockno i is =>
    have hknown := hc.asked p (dev, blockno) (by rw [hpc]; rfl)
    apply (detach_spec i h.shelves.lists).bind
    intro r c1 hr
    cases r with
    | none =>
      refine ensures_pure.mpr ⟨?_, hr.1.marked.disk⟩
      apply hc.marked h hr.1.marked
      · rintro k ⟨⟩
        exact hknown
      · rintro _ _ _ ⟨⟩
    | some b =>
      refine ensures_pure.mpr ⟨?_, hr.2.2.marked.disk⟩
      apply hc.marked h hr.2.2.marked
      · rintro k ⟨⟩
        exact hknown
      · rintro _ _ _ ⟨⟩
  | insert dev blockno b =>
    have hknown := hc.asked p (dev, blockno) (by rw [hpc]; rfl)
    have hzero := h.shelves.off p b (by rw [hpc]; rfl)
    apply (insert_spec s.cache b dev blockno).bind
    rintro _ c1 rfl
    refine ensures_pure.mpr ⟨?_, rfl⟩
    refine Kernel.Current.keep h hc rfl (by rintro _ ⟨⟩) (by rintro _ _ _ ⟨⟩) ?_ ?_ ?_
    · intro y hu
      by_cases hy : y = b
      · rw [hy, inserted_self]
        exact hknown
      · rw [inserted_other _ dev blockno hy] at hu ⊢
        exact hc.dev y hu
    · intro y hv
      by_cases hy : y = b
      · rw [hy, inserted_self] at hv
        cases hv
      · rw [inserted_other _ dev blockno hy] at hv ⊢
        exact ⟨hv, rfl, rfl⟩
    · intro y hpos hv
      rw [inserted_other]
      · exact hv
      · rintro rfl
        omega
  | acquire dev blockno b =>
    have hpos := h.user_pos (p := p) (b := b) (by rw [hpc]; rfl)
    unfold acquiresleep Buffer.setBuf
    simp only [ensures_bind, ensures_get, ensures_ite, ensures_modify, ensures_pure]
    refine ⟨fun _ ↦ ensures_halt, fun _ ↦ ⟨?_, trivial⟩⟩
    exact hc.setBuf h (b := b) rfl rfl (by rintro _ ⟨⟩) (by rintro _ _ _ ⟨⟩)
      (fun _ ↦ hc.dev b (.inl hpos)) rfl rfl rfl
  | fill dev blockno b =>
    exact (fill_current h hc hpc).bind fun _ c1 h1 ↦ ensures_pure.mpr h1
  | write dev blockno b d =>
    exact (write_current h hc hpc d).bind fun _ c1 h1 ↦ ensures_pure.mpr h1
  | release dev blockno b =>
    have hpos := h.user_pos (p := p) (b := b) (by rw [hpc]; rfl)
    unfold releasesleep Buffer.setBuf
    simp only [ensures_bind, ensures_get, ensures_ite, ensures_modify, ensures_pure]
    refine ⟨fun _ ↦ ensures_halt, fun _ ↦ ⟨?_, trivial⟩⟩
    exact hc.setBuf h (b := b) rfl rfl (by rintro _ ⟨⟩) (by rintro _ _ _ ⟨⟩)
      (fun _ ↦ hc.dev b (.inl hpos)) rfl rfl rfl
  | unref dev blockno b =>
    have hpos := h.user_pos (p := p) (b := b) (by rw [hpc]; rfl)
    unfold Buffer.unref Buffer.setBuf
    simp only [ensures_bind, ensures_modify, ensures_pure]
    refine ⟨?_, trivial⟩
    exact hc.setBuf h (b := b) rfl rfl (by rintro _ ⟨⟩) (by rintro _ _ _ ⟨⟩)
      (fun _ ↦ hc.dev b (.inl hpos)) rfl rfl rfl
  | start dev =>
    exact ensures_pure.mpr ⟨hc.marked h (.refl _) (by rintro _ ⟨⟩) (by rintro _ _ _ ⟨⟩), rfl⟩
  | invalidate dev i is =>
    unfold invalidateBucket
    simp only [ensures_bind, ensures_modify, ensures_pure]
    refine ⟨?_, trivial⟩
    refine Kernel.Current.keep h hc rfl (by rintro _ ⟨⟩) (by rintro _ _ _ ⟨⟩) ?_ ?_ ?_
    · intro y
      dsimp only
      split_ifs with hy
      · intro hu
        apply hc.dev y
        exact hu.imp_right (by rintro ⟨⟩)
      · exact hc.dev y
    · intro y
      dsimp only
      split_ifs with hy
      · rintro ⟨⟩
      · exact fun hv ↦ ⟨hv, rfl, rfl⟩
    · intro y hpos hv
      dsimp only
      rw [if_neg]
      · exact hv
      · rintro ⟨-, -, hzero⟩
        omega
  | stop dev =>
    exact ensures_pure.mpr ⟨hc.marked h (.refl _) (by rintro _ ⟨⟩) (by rintro _ _ _ ⟨⟩), rfl⟩

end

/-! ### One buffer for a sector -/

/-- The cache after `binit`, with all processes between their calls. -/
def Kernel.boot (P : Type) (nbuf : Nat) (d : D) (disk : Nat → D) : Kernel P (Fin nbuf) D where
  cache := binit nbuf d disk
  pc := fun _ ↦ .idle

private theorem Kernel.inv_boot [Fintype P] (nbuf : Nat) (d : D) (disk : Nat → D) :
    (Kernel.boot P nbuf d disk).Inv := by
  obtain ⟨hlists, hplaced⟩ := binit_coherent nbuf d disk fun _ ↦ 0
  refine ⟨⟨?_, hplaced, nofun, nofun, nofun⟩, ?_, nofun, nofun, nofun⟩
  · refine ⟨hlists.nodup, hlists.apart, fun b ↦ .inr ?_, fun b i ⟨q, hq⟩ ↦ ?_, hlists.hand⟩
    · exact (hlists.cover b).resolve_left id
    · cases hq
  · intro b
    exact congrArg Nat.cast (refs_none b).symm

private theorem Kernel.current_boot (devOf : Nat → Nat) (nbuf : Nat) (d : D) (disk : Nat → D) :
    (Kernel.boot P nbuf d disk).Current devOf := by
  refine ⟨nofun, ?_, nofun, nofun⟩
  intro b hu
  rcases hu with hpos | hv
  · exact absurd hpos (Nat.lt_irrefl 0)
  · cases hv

variable [DecidableEq P] [Fintype P]

/-- A step that does not run into another process's `bget`. -/
def Kernel.QuietStep (nbuf : Nat) (s : Kernel P (Fin nbuf) D) (e : P × Act D)
    (s' : Kernel P (Fin nbuf) D) : Prop := s.Unraced e ∧ Kernel.Step nbuf s e s'

private theorem Kernel.inv_of_runs {nbuf : Nat} {d : D} {disk : Nat → D} {es : List (P × Act D)}
    {s : Kernel P (Fin nbuf) D}
    (h : Runs (Kernel.QuietStep nbuf) (Kernel.boot P nbuf d disk) es s) : s.Inv := by
  refine Runs.invariant (fun s ↦ Kernel.Inv s) ?_ h (Kernel.inv_boot nbuf d disk)
  rintro s e s' hs ⟨hun, hstep⟩
  exact hs.step hun (by rwa [Fintype.card_fin])

private theorem Kernel.current_of_runs {nbuf : Nat} {d : D} {disk : Nat → D} {es : List (P × Act D)}
    {s : Kernel P (Fin nbuf) D} {devOf : Nat → Nat}
    (h : Runs (Kernel.QuietStep nbuf) (Kernel.boot P nbuf d disk) es s)
    (hdev : ∀ p dev blockno, (p, Act.bread dev blockno) ∈ es → dev = devOf blockno) :
    s.Current devOf := by
  have hkeep : ∀ (s : Kernel P (Fin nbuf) D) (e : P × Act D) s',
      (∀ dev blockno, e.2 = .bread dev blockno → dev = devOf blockno) →
        s.Inv ∧ s.Current devOf → Kernel.QuietStep nbuf s e s' → s'.Inv ∧ s'.Current devOf := by
    rintro s e s' hok ⟨hs, hc⟩ ⟨hun, hstep⟩
    have hstep' : Kernel.Step (Fintype.card (Fin nbuf)) s e s' := by rwa [Fintype.card_fin]
    exact ⟨hs.step hun hstep', (hc.step hs hok hstep').1⟩
  have hok : ∀ e ∈ es, ∀ dev blockno, e.2 = .bread dev blockno → dev = devOf blockno := by
    rintro ⟨p, act⟩ he dev blockno rfl
    exact hdev p dev blockno he
  exact (Runs.invariant_of (fun s ↦ Kernel.Inv s ∧ s.Current devOf) hkeep h hok
    ⟨Kernel.inv_boot nbuf d disk, Kernel.current_boot devOf nbuf d disk⟩).2

/-- In runs in which no step runs into the `bget` of another process, a sector has one buffer that
is in use or has contents, and processes that refer to the sector share it. When a sector is asked
for under one device number, a process that may access a buffer finds what the disk holds, and the
disk changes by the writes only. -/
theorem one_buffer {nbuf : Nat} {d : D} {disk : Nat → D} {es : List (P × Act D)}
    {s : Kernel P (Fin nbuf) D}
    (h : Runs (Kernel.QuietStep nbuf) (Kernel.boot P nbuf d disk) es s) :
    (∀ a b, (s.cache.buf a).Used → (s.cache.buf b).Used →
      (s.cache.buf a).SameKey (s.cache.buf b) → a = b) ∧
    (∀ p q stage stage' dev blockno a b, s.pc p = .has stage dev blockno a →
      s.pc q = .has stage' dev blockno b → a = b) ∧
    ∀ devOf : Nat → Nat,
      (∀ p dev blockno, (p, Act.bread dev blockno) ∈ es → dev = devOf blockno) →
      (∀ p dev blockno b, s.pc p = .has .holding dev blockno b →
        (s.cache.buf b).data = s.cache.disk blockno) ∧
      ∀ e s', (∀ dev blockno, e.2 = .bread dev blockno → dev = devOf blockno) →
        Kernel.Step nbuf s e s' → s'.cache.disk = s.put e := by
  have hinv := Kernel.inv_of_runs h
  refine ⟨fun a b ↦ hinv.shelves.unique, ?_, ?_⟩
  · intro p q stage stage' dev blockno a b hp hq
    obtain ⟨hdev, hblock⟩ := hinv.key p stage dev blockno a hp
    obtain ⟨hdev', hblock'⟩ := hinv.key q stage' dev blockno b hq
    apply hinv.shelves.unique
    · exact .inl (hinv.user_pos (p := p) (by rw [hp]; rfl))
    · exact .inl (hinv.user_pos (p := q) (by rw [hq]; rfl))
    · exact ⟨hdev.trans hdev'.symm, hblock.trans hblock'.symm⟩
  · intro devOf hdev
    have hcurrent := Kernel.current_of_runs h hdev
    refine ⟨?_, ?_⟩
    · intro p dev blockno b hp
      rw [hcurrent.data b (hcurrent.filled p dev blockno b hp), (hinv.key p _ _ _ b hp).2]
    · intro e s' hok hstep
      exact (hcurrent.step hinv hok (by rwa [Fintype.card_fin])).2

/-- A step of the kind that is computed. -/
def Kernel.quietNext (nbuf : Nat) (s : Kernel P (Fin nbuf) D) (e : P × Act D) :
    Option (Kernel P (Fin nbuf) D) := if s.Unraced e then s.next nbuf e else none

private theorem Kernel.quietStep_of_next (nbuf : Nat) (s : Kernel P (Fin nbuf) D) (e : P × Act D)
    (s' : Kernel P (Fin nbuf) D) (h : s.quietNext nbuf e = some s') :
    Kernel.QuietStep nbuf s e s' := by
  unfold Kernel.quietNext at h
  split_ifs at h with hun
  exact ⟨hun, h⟩

/-- The process has sector 5 of device 0. -/
def Pc.holdsSector {B : Type} : Pc B → Bool
  | .has .holding 0 5 _ => true
  | _ => false

/-- A process writes sector 5, and another one reads it. -/
theorem one_buffer_small : ∃ es, ∃ s : Kernel (Fin 2) (Fin 30) Bool, ∃ b,
    Runs (Kernel.QuietStep 30) (Kernel.boot (Fin 2) 30 false fun _ ↦ false) es s ∧
      s.pc 1 = .has .holding 0 5 b ∧ s.cache.disk 5 = true ∧ (s.cache.buf b).data = true := by
  let es : List (Fin 2 × Act Bool) := [(0, .bread 0 5), (0, .next), (0, .next), (0, .next),
    (0, .next), (1, .bread 0 5), (0, .write true), (0, .brelse), (1, .next), (0, .next), (1, .next)]
  obtain ⟨s, hrun, hcheck⟩ := exists_runs (Kernel.quietStep_of_next 30)
    (Kernel.boot (Fin 2) 30 false fun _ ↦ false) es (fun s ↦ s.cache.disk 5 &&
      (s.pc 1).holdsSector) (by decide +kernel)
  rw [Bool.and_eq_true] at hcheck
  obtain ⟨hdisk, hholds⟩ := hcheck
  cases hpc : s.pc 1 with
  | has stage dev blockno b =>
    rw [hpc] at hholds
    unfold Pc.holdsSector at hholds
    split at hholds
    · rename_i heq
      obtain ⟨rfl, rfl, rfl, rfl⟩ := Pc.has.inj heq
      have hdata := ((one_buffer hrun).2.2 (fun _ ↦ 0) (by simp [es])).1 1 0 5 b hpc
      exact ⟨es, s, b, hrun, hpc, hdisk, hdata.trans hdisk⟩
    · cases hholds
  | idle => simp [hpc, Pc.holdsSector] at hholds
  | searching _ _ _ => simp [hpc, Pc.holdsSector] at hholds
  | inserting _ _ _ => simp [hpc, Pc.holdsSector] at hholds
  | invalidating _ _ => simp [hpc, Pc.holdsSector] at hholds

/-- Two processes miss sector 5 at the same time: each takes a buffer off a list and puts it in,
and both are in use. -/
theorem two_buffers : ∃ es, ∃ s : Kernel (Fin 2) (Fin 30) Bool, ∃ a b,
    Runs (Kernel.Step 30) (Kernel.boot (Fin 2) 30 false fun _ ↦ false) es s ∧ a ≠ b ∧
      s.pc 0 = .has .acquiring 0 5 a ∧ s.pc 1 = .has .acquiring 0 5 b ∧
      (s.cache.buf a).Used ∧ (s.cache.buf b).Used ∧ (s.cache.buf a).SameKey (s.cache.buf b) := by
  let es : List (Fin 2 × Act Bool) := [(0, .bread 0 5), (1, .bread 0 5), (0, .next), (1, .next),
    (0, .next), (1, .next)]
  obtain ⟨s, hrun, hcheck⟩ := exists_runs
    (show ∀ s e s', Kernel.next 30 s e = some s' → Kernel.Step 30 s e s' from fun _ _ _ h ↦ h)
    (Kernel.boot (Fin 2) 30 false fun _ ↦ false) es (fun s ↦ decide (∃ a b : Fin 30, a ≠ b ∧
      s.pc 0 = .has .acquiring 0 5 a ∧ s.pc 1 = .has .acquiring 0 5 b ∧
      (s.cache.buf a).Used ∧ (s.cache.buf b).Used ∧
      (s.cache.buf a).dev = (s.cache.buf b).dev ∧
      (s.cache.buf a).blockno = (s.cache.buf b).blockno)) (by decide +kernel)
  obtain ⟨a, b, hne, ha, hb, hua, hub, hkey⟩ := of_decide_eq_true hcheck
  exact ⟨es, s, a, b, hrun, hne, ha, hb, hua, hub, hkey⟩

end Xv6K210.Buffer
