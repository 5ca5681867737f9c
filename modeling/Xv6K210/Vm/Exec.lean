import Xv6K210.Vm.Fork

/-!
# Exec

`exec` fills a new table, puts its entries into the kernel table, and then either
drops the old memory or takes the entries back out. Both ways end with an address space.
-/

namespace Xv6K210.Vm

open Xv6K210.Base Prog Function

variable {P O F : Type}

/-! ### The new table -/

/-- Only entries of the table `t` changed. -/
structure Fill (t : Tbl P) (w w' : World P O F) : Prop where
  core : Core w w'
  leaf : ∀ t', t' ≠ t → w'.leaf t' = w.leaf t'

/-- Nothing is filled. -/
theorem Fill.refl (t : Tbl P) (w : World P O F) : Fill t w w := ⟨.refl w, fun _ _ ↦ rfl⟩

/-- A table filled twice. -/
theorem Fill.trans {t : Tbl P} {w w' w'' : World P O F} (h : Fill t w w') (h' : Fill t w' w'') :
    Fill t w w'' := by
  refine ⟨h.core.trans h'.core, ?_⟩
  intro t' ht
  rw [h'.leaf t' ht, h.leaf t' ht]

/-- A quiet step fills nothing. -/
theorem Quiet.fill {t : Tbl P} {w w' : World P O F} (h : Quiet w w') : Fill t w w' :=
  ⟨h.core, fun t' _ ↦ by rw [h.leaf]⟩

/-- An effect on one table fills it. -/
theorem Eff.fill {t : Tbl P} {w w' : World P O F} {L : Leaves P} (h : Eff w w' L)
    (hL : ∀ t', t' ≠ t → L t' = w.leaf t') : Fill t w w' :=
  ⟨h.core, fun t' ht ↦ by rw [h.leaf, hL t' ht]⟩

/-- The entries for user memory lie below the size. -/
def Below (t : Tbl P) (w : World P O F) (sz : Nat) : Prop :=
  ∀ n e, UserPage n → w.leaf t n = some e → n * pgsize < pgroundup sz

/-- A quiet step keeps the bound. -/
theorem Below.quiet {t : Tbl P} {w w' : World P O F} {sz : Nat} (h : Below t w sz)
    (h' : Quiet w w') : Below t w' sz := by
  intro n e hn he
  rw [h'.leaf] at he
  exact h n e hn he

/-- The bound may grow. -/
theorem Below.mono {t : Tbl P} {w : World P O F} {sz sz' : Nat} (h : Below t w sz)
    (hle : sz ≤ sz') : Below t w sz' :=
  fun n e hn he ↦ (h n e hn he).trans_le (pgroundup_mono hle)

variable [DecidableEq P]

private theorem uvmallocPage_spec (w : World P O F) (t : Tbl P) (n : Nat) :
    Ensures (uvmallocPage t n) w fun ok w' ↦
      Fill t w w' ∧ (ok = true → ∃ pa, Eff w w' (w.leaf.put t n
        (some ⟨pa, ⟨true, true, true, true, false⟩⟩))) := by
  unfold uvmallocPage
  apply (kallocPage_quiet w).bind
  intro r w1 h1
  cases r with
  | none =>
    rw [ensures_pure]
    exact ⟨h1.fill, by simp⟩
  | some pa =>
    apply (zeroPage_quiet w1 pa).bind
    intro _ w2 h2
    have h12 := h1.trans h2
    apply (mappages_spec w2 t n pa _).bind
    rintro ok w3 (⟨rfl, -, h3⟩ | ⟨rfl, h3⟩)
    · rw [h12.leaf] at h3
      have h := h12.eff.trans h3
      exact ensures_pure.mpr ⟨h.fill fun t' ht ↦ Leaves.put_ne _ ht _ _, fun _ ↦ ⟨pa, h⟩⟩
    · rw [h12.leaf] at h3
      simp only [Bool.false_eq_true, if_false, ensures_bind, ensures_pure]
      apply (kfreePage_quiet w3 pa).mono
      intro _ w4 h4
      refine ⟨?_, by simp⟩
      exact ((h12.eff.trans h3).fill fun _ _ ↦ rfl).trans h4.fill

/-- `uvmalloc`: a table that is filled below its size is filled below the new size. -/
theorem uvmalloc_spec {w : World P O F} {t : Tbl P} {oldsz : Nat} (newsz : Nat)
    (h : Below t w oldsz) :
    Ensures (uvmalloc t oldsz newsz) w fun sz w' ↦
      Fill t w w' ∧ (sz ≠ 0 → Below t w' sz) := by
  unfold uvmalloc
  simp only [ensures_ite, ensures_pure]
  refine ⟨fun _ ↦ ⟨.refl t w, fun _ ↦ h⟩, fun hle ↦ ⟨fun _ ↦ ⟨.refl t w, by simp⟩, fun _ ↦ ?_⟩⟩
  have hle : oldsz ≤ newsz := Nat.le_of_not_lt hle
  refine (ensures_stopAt
    (fun left w' ↦ left ⊆ pages (pgroundup oldsz) newsz ∧ Fill t w w' ∧ Below t w' newsz)
    (fun _ _ w' ↦ Fill t w w') ?_ ⟨fun _ hn ↦ hn, .refl t w, h.mono hle⟩).bind ?_
  · rintro n left w1 ⟨hsub, h1, hb1⟩
    apply (uvmallocPage_spec w1 t n).mono
    rintro ok w2 ⟨h2, hput⟩
    cases ok with
    | false => exact h1.trans h2
    | true =>
      refine ⟨fun m hm ↦ hsub (List.mem_cons_of_mem n hm), h1.trans h2, ?_⟩
      obtain ⟨pa, hput⟩ := hput rfl
      intro m e hm he
      rw [hput.leaf, Leaves.put_apply] at he
      split_ifs at he with hmn
      · rw [hmn.2]
        have hmem := (mem_pages (pgroundup_mod oldsz)).mp (hsub List.mem_cons_self)
        exact hmem.2.trans_le (le_pgroundup newsz)
      · exact hb1 m e hm he
  · intro r w1 h1
    cases r with
    | none =>
      rw [ensures_pure]
      exact ⟨h1.2.1, fun _ ↦ h1.2.2⟩
    | some n =>
      obtain ⟨_, -, h1⟩ := h1
      simp only [ensures_bind, ensures_pure]
      apply (uvmdealloc_spec w1 t _ _ true).mono
      rintro _ w2 ⟨-, h2⟩
      exact ⟨h1.trans (h2.fill fun t' ht ↦ Leaves.drop_ne _ ht _), by simp⟩

omit [DecidableEq P] in
private theorem loadsegPage_quiet (w : World P O F) (t : Tbl P) (s : Seg) (i : Nat) :
    Ensures (loadsegPage t s i) w fun _ w' ↦ Quiet w w' := by
  unfold loadsegPage
  apply (walk_spec w t _).bind
  rintro r w1 ⟨rfl, rfl⟩
  split
  · exact ensures_halt
  · rw [ensures_modify]
    exact .of_eq rfl rfl rfl rfl rfl

omit [DecidableEq P] in
private theorem loadseg_quiet (w : World P O F) (t : Tbl P) (s : Seg) :
    Ensures (loadseg t s) w fun _ w' ↦ Quiet w w' := by
  unfold loadseg
  rw [ensures_ite, ensures_pure]
  refine ⟨fun _ ↦ ?_, fun _ ↦ .refl w⟩
  simp only [ensures_bind, ensures_pure]
  apply ensures_forEach (fun _ w' ↦ Quiet w w') _ (Quiet.refl w)
  intro i is w1 h1
  apply (loadsegPage_quiet w1 t s i).mono
  intro _ w2 h2
  exact h1.trans h2

/-- The loop of `exec` over the program headers fills the table below the size. -/
theorem loadSegs_spec (t : Tbl P) (segs : List Seg) {w : World P O F} {sz : Nat}
    (h : Below t w sz) :
    Ensures (loadSegs t sz segs) w fun r w' ↦
      Fill t w w' ∧ (r.1 = true → Below t w' r.2) := by
  induction segs generalizing w sz with
  | nil =>
    rw [loadSegs, ensures_pure]
    exact ⟨.refl t w, fun _ ↦ h⟩
  | cons s segs ih =>
    rw [loadSegs]
    simp only [ensures_ite, ensures_pure]
    refine ⟨fun _ ↦ ⟨.refl t w, by simp⟩, fun _ ↦ ⟨fun _ ↦ ih h, fun _ ↦
      ⟨fun _ ↦ ⟨.refl t w, by simp⟩, fun _ ↦ ?_⟩⟩⟩
    apply (uvmalloc_spec _ h).bind
    rintro sz1 w1 ⟨h1, hb1⟩
    simp only [ensures_ite, ensures_pure]
    refine ⟨fun _ ↦ ⟨h1, by simp⟩, fun hsz ↦ ⟨fun _ ↦ ⟨h1, by simp⟩, fun _ ↦ ?_⟩⟩
    apply (loadseg_quiet w1 t s).bind
    intro ok w2 h2
    rw [ensures_ite, ensures_pure]
    constructor
    · intro _
      apply (ih ((hb1 hsz).quiet h2)).mono
      rintro r w3 ⟨h3, hb3⟩
      exact ⟨(h1.trans h2.fill).trans h3, hb3⟩
    · intro _
      exact ⟨h1.trans h2.fill, by simp⟩

/-- The entries for user memory lie below the size or in the stack. -/
def Fits (sz : Nat) (u : Nat → Option Pte) : Prop :=
  ∀ n e, UserPage n → u n = some e → n * pgsize < pgroundup sz ∨ n ∈ stackPages

omit [DecidableEq P] in
/-- The pages of the user stack. -/
theorem mem_stackPages {n : Nat} :
    n ∈ stackPages ↔ userStackStart ≤ n * pgsize ∧ n * pgsize < userStackTop :=
  mem_pages (by decide)

/-- `uvm_stack_init` maps the stack only. -/
theorem uvmStackInit_spec {w : World P O F} {t : Tbl P} {sz : Nat} (h : Below t w sz) :
    Ensures (uvmStackInit t) w fun ok w' ↦
      Fill t w w' ∧ (ok = true → Fits sz (w'.leaf t)) := by
  unfold uvmStackInit
  apply (kallocPage_quiet w).bind
  intro r w1 h1
  cases r with
  | none =>
    rw [ensures_pure]
    exact ⟨h1.fill, by simp⟩
  | some pa =>
    apply (zeroPage_quiet w1 pa).bind
    intro _ w2 h2
    have h12 := h1.trans h2
    apply (mappages_spec w2 t _ pa _).bind
    rintro ok w3 (⟨rfl, -, h3⟩ | ⟨rfl, h3⟩)
    · rw [h12.leaf] at h3
      refine ensures_pure.mpr ⟨h12.fill.trans ?_, fun _ ↦ ?_⟩
      · exact ⟨h3.core, fun t' ht ↦ by rw [h3.leaf, Leaves.put_ne _ ht, h12.leaf]⟩
      · intro n e hn he
        rw [h3.leaf, Leaves.put_apply] at he
        split_ifs at he with hmn
        · rw [hmn.2]
          exact .inr (mem_stackPages.mpr (by decide))
        · exact .inl (h n e hn he)
    · rw [h12.leaf] at h3
      simp only [Bool.false_eq_true, if_false, ensures_bind, ensures_pure]
      apply (kfreePage_quiet w3 pa).mono
      intro _ w4 h4
      refine ⟨?_, by simp⟩
      exact ((h12.eff.trans h3).fill fun _ _ ↦ rfl).trans h4.fill

/-! ### Changing the kernel table over -/

/-- The entries of the pages `ns` go from the table `k`, and those of the pages `ms` come in from
the table `u`. -/
def Leaves.reload (L : Leaves P) (u k : Tbl P) (ns ms : List Nat) : Leaves P :=
  (L.drop k ns).copy u k ms

/-- Other tables stay. -/
theorem Leaves.reload_ne (L : Leaves P) {u k t : Tbl P} (h : t ≠ k) (ns ms : List Nat) :
    L.reload u k ns ms t = L t := by
  unfold Leaves.reload
  rw [Leaves.copy_ne _ h, Leaves.drop_ne _ h]

/-- The kernel table of the process after the copy. -/
theorem Leaves.reload_same (L : Leaves P) {u k : Tbl P} (h : u ≠ k) (ns ms : List Nat) :
    L.reload u k ns ms k = fun n ↦ if n ∈ ms then
      ((L u n).map Pte.mirror).or (if n ∈ ns then none else L k n)
      else if n ∈ ns then none else L k n := by
  unfold Leaves.reload
  rw [Leaves.copy_same, Leaves.drop_ne _ h, Leaves.drop_same]

/-- The heap and the stack of another table are put into the kernel table. -/
theorem reload_spec (w : World P O F) (p : P) {src : Tbl P} (hsrc : src ≠ .kern p) (old new : Nat)
    (msg : String) :
    Ensures (do
      uvmunmap (.kern p) (pages 0 (pgroundup old)) false
      uvmStackUnmap (.kern p) false
      if ← upg2ukpg src (.kern p) (pages 0 new) then uvmStackSync src (.kern p)
      else halt msg) w fun _ w' ↦
        Eff w w' (w.leaf.reload src (.kern p) (copied (pgroundup old)) (copied new)) := by
  unfold uvmStackUnmap uvmStackSync
  apply (uvmunmap_spec w (.kern p) _ false).bind
  intro _ w1 h1
  apply (uvmunmap_spec w1 (.kern p) _ false).bind
  intro _ w2 h2
  have hdrop : (w.leaf.drop (.kern p) (pages 0 (pgroundup old))).drop (.kern p) stackPages =
      w.leaf.drop (.kern p) (copied (pgroundup old)) := by
    ext t n : 2
    unfold copied
    simp only [Leaves.drop_apply, List.mem_append]
    split_ifs <;> simp_all
  rw [h1.leaf, hdrop] at h2
  apply (upg2ukpg_spec w2 hsrc _).bind
  rintro ok w3 ⟨ms, h3, -, hms⟩
  rw [ensures_ite]
  refine ⟨fun hok ↦ ?_, fun _ ↦ ensures_halt⟩
  rw [hms hok, h2.leaf] at h3
  apply (upg2ukpg_spec w3 hsrc _).bind
  rintro ok w4 ⟨ms', h4, -, hms'⟩
  rw [ensures_ite, ensures_pure]
  refine ⟨fun hok ↦ ?_, fun _ ↦ ensures_halt⟩
  rw [hms' hok, h3.leaf, Leaves.copy_copy _ hsrc] at h4
  exact ((h1.trans h2).trans h3).trans h4

/-- Staging copies the image's entries. -/
theorem execStage_spec (w : World P O F) (p : P) (oldsz sz : Nat) :
    Ensures (execStage p oldsz sz) w fun _ w' ↦
      Eff w w' (w.leaf.reload (.image p) (.kern p) (copied (pgroundup oldsz)) (copied sz)) :=
  reload_spec w p (by simp) oldsz sz _

/-- Restoring copies the old entries back. -/
theorem execRestore_spec (w : World P O F) (p : P) (oldsz sz : Nat) :
    Ensures (execRestore p oldsz sz) w fun _ w' ↦
      Eff w w' (w.leaf.reload (.user p) (.kern p) (copied (pgroundup sz)) (copied oldsz)) :=
  reload_spec w p (by simp) sz oldsz _

omit [DecidableEq P] in
private theorem pokeStack_quiet (w : World P O F) (p : P) (va : Nat) (bs : List UInt8) :
    Ensures (pokeStack p va bs) w fun _ w' ↦ Quiet w w' := by
  unfold pokeStack
  apply (walk_spec w _ _).bind
  rintro r w1 ⟨rfl, rfl⟩
  split
  · exact ensures_halt
  · rw [ensures_modify]
    exact .of_eq rfl rfl rfl rfl rfl

omit [DecidableEq P] in
/-- Pushing the arguments changes no entry. -/
theorem execArgs_quiet (w : World P O F) (p : P) (argv : List (List UInt8)) :
    Ensures (execArgs p argv) w fun _ w' ↦ Quiet w w' := by
  unfold execArgs
  split
  · exact ensures_pure.mpr (.refl w)
  · have hpoke : ∀ out : List (Nat × List UInt8),
        Ensures (forEach (fun x ↦ pokeStack p x.1 x.2) out) w fun _ w' ↦ Quiet w w' := by
      intro out
      apply ensures_forEach (fun _ w' ↦ Quiet w w') _ (Quiet.refl w)
      intro x xs w1 h1
      apply (pokeStack_quiet w1 p x.1 x.2).mono
      intro _ w2 h2
      exact h1.trans h2
    apply (hpoke _).bind
    intro _ w1 h1
    simp only [ensures_ite, ensures_pure, ensures_bind]
    refine ⟨fun _ ↦ h1, fun _ ↦ ?_⟩
    apply (pokeStack_quiet w1 p _ _).mono
    intro _ w2 h2
    exact h1.trans h2

section

omit [DecidableEq P]

private theorem pgroundup_pgroundup (a : Nat) : pgroundup (pgroundup a) = pgroundup a :=
  le_antisymm (pgroundup_le (pgroundup_mod a) le_rfl) (le_pgroundup _)

private theorem mem_copied {sz n : Nat} : n ∈ copied sz ↔ n * pgsize < sz ∨ n ∈ stackPages := by
  unfold copied
  rw [List.mem_append, mem_pages (by decide)]
  simp

/-- The entries of the new table came in, and were taken out again. -/
theorem Mirror.restored {u k i : Nat → Option Pte} (h : Mirror u k) {oldsz sz : Nat} :
    let staged := fun n ↦ if n ∈ copied (pgroundup sz) then
      ((i n).map Pte.mirror).or (if n ∈ copied (pgroundup oldsz) then none else k n)
      else if n ∈ copied (pgroundup oldsz) then none else k n
    Mirror u fun n ↦ if n ∈ copied oldsz then
      ((u n).map Pte.mirror).or (if n ∈ copied (pgroundup (pgroundup sz)) then none else staged n)
      else if n ∈ copied (pgroundup (pgroundup sz)) then none else staged n := by
  intro staged
  apply Mirror.copy
  intro n e hn he
  dsimp only [staged] at he
  rw [pgroundup_pgroundup] at he
  split_ifs at he
  exact h n e hn he

/-- The entries of the new table came in, and the mappings of the old one went. -/
theorem Space.committed {q : Proc P O F} {u k i : Nat → Option Pte} (h : Space q u k) {sz : Nat}
    (hi : Fits sz i) {ns : List Nat}
    (hns : ∀ n, n ∈ ns ↔ ∃ j v, q.vmas j = some v ∧ n ∈ pages v.start v.fin) :
    Space ({ q with sz := pgroundup sz, vmas := fun _ ↦ none } : Proc P O F) i fun n ↦
      if n ∈ ns then none else
      if n ∈ copied (pgroundup sz) then
        ((i n).map Pte.mirror).or (if n ∈ copied (pgroundup q.sz) then none else k n)
      else if n ∈ copied (pgroundup q.sz) then none else k n := by
  -- an old kernel entry that is left belongs to a mapping, and is gone with it
  have hold : ∀ n e, UserPage n → n ∉ ns → n ∉ copied (pgroundup q.sz) → k n = some e →
      False := by
    intro n e hn hout hheap hk
    obtain ⟨e', hu, -⟩ := h.mirror n e hn hk
    rw [mem_copied, mem_stackPages] at hheap
    rcases h.foot n e' hn hu with hlow | hstack | ⟨j, v, hv, hc⟩
    · exact hheap (.inl hlow)
    · exact hheap (.inr hstack)
    · exact hout ((hns n).mpr ⟨j, v, hv, (h.layout.ok j v hv).mem_pages.mpr hc⟩)
  refine ⟨Layout.empty _, ?_, ?_, ?_⟩
  · intro n e hn he
    rcases hi n e hn he with hlow | hstack
    · left
      dsimp only
      rw [pgroundup_pgroundup]
      exact hlow
    · exact .inr (.inl (mem_stackPages.mp hstack))
  · intro n e hn he
    dsimp only at he
    split_ifs at he with hout hin hheap hheap
    · rw [Option.or_none, Option.map_eq_some_iff] at he
      obtain ⟨e', he', rfl⟩ := he
      exact ⟨e', he', rfl⟩
    · cases hu : i n with
      | some e' =>
        rw [hu] at he
        cases he
        exact ⟨e', rfl, rfl⟩
      | none =>
        rw [hu] at he
        exact (hold n e hn hout hheap he).elim
    · exact (hold n e hn hout hheap he).elim
  · intro j v hv
    cases hv

end

/-! ### The whole call -/

/-- Only process `p` and its three tables changed, and it has its two tables still. -/
structure Self (p : P) (w w' : World P O F) : Prop where
  proc : ∀ q, q ≠ p → w'.proc q = w.proc q
  state : (w'.proc p).state = (w.proc p).state
  leaf : ∀ t, t ≠ .user p → t ≠ .kern p → t ≠ .image p → w'.leaf t = w.leaf t
  there : ∀ t, t ≠ .image p → w.there t → w'.there t

omit [DecidableEq P] in
/-- Steps of the process itself compose. -/
theorem Self.trans {p : P} {w w' w'' : World P O F} (h : Self p w w') (h' : Self p w' w'') :
    Self p w w'' := by
  constructor
  · intro q hq
    rw [h'.proc q hq, h.proc q hq]
  · rw [h'.state, h.state]
  · intro t h1 h2 h3
    rw [h'.leaf t h1 h2 h3, h.leaf t h1 h2 h3]
  · intro t ht hw
    exact h'.there t ht (h.there t ht hw)

omit [DecidableEq P] in
/-- Filling the image is the process's own step. -/
theorem At.self {p : P} {w w' : World P O F} (h : At (.image p) w w') : Self p w w' := by
  refine ⟨fun q _ ↦ by rw [h.proc], by rw [h.proc], fun t _ _ ht ↦ h.leaf t ht, ?_⟩
  intro t ht hw
  rw [h.there t ht, hw]

omit [DecidableEq P] in
/-- An own step changes the process only. -/
theorem Own.self {p : P} {w w' : World P O F} (h : Own p w w') : Self p w w' := by
  refine ⟨h.proc, by rw [h.mine], fun t hu hk _ ↦ h.leaf t hu hk, ?_⟩
  intro t _ hw
  rw [h.there t, hw]

omit [DecidableEq P] in
/-- Filling a table changes that table only. -/
theorem Fill.at {t : Tbl P} {w w' : World P O F} (h : Fill t w w') : At t w w' :=
  ⟨h.core.proc, h.core.obj, h.core.file, h.core.held, h.leaf, fun t' _ ↦ h.core.there t'⟩

omit [DecidableEq P] in
/-- A table of the new image is of no concern for the address space. -/
theorem SpaceAt.at {p : P} {w w' : World P O F} (h : SpaceAt w p) (h' : At (.image p) w w') :
    SpaceAt w' p := by
  unfold SpaceAt
  rw [h'.proc, h'.leaf _ (by simp), h'.leaf _ (by simp)]
  exact h

variable [DecidableEq O] [DecidableEq F]

omit [DecidableEq O] [DecidableEq F] in
/-- The table of the new image becomes the user table, and the other way round. -/
theorem swapTables_spec (w : World P O F) (p : P) :
    Ensures (modify fun w : World P O F ↦ { w with
      pt := update (update w.pt (.user p) (w.pt (.image p)))
        (.image p) (w.pt (.user p)) }) w fun _ w' ↦
      w'.proc = w.proc ∧ w'.leaf (.user p) = w.leaf (.image p) ∧
        w'.there (.user p) = w.there (.image p) ∧
        ∀ t, t ≠ .user p → t ≠ .image p → w'.leaf t = w.leaf t ∧ w'.there t = w.there t := by
  rw [ensures_modify]
  refine ⟨rfl, ?_, ?_, ?_⟩
  · unfold World.leaf
    simp
  · unfold World.there
    simp
  · intro t hu hi
    unfold World.leaf World.there
    dsimp only
    rw [update_of_ne hi, update_of_ne hu]
    exact ⟨rfl, rfl⟩

/-- The end of `exec`. -/
theorem execCommit_spec {p : P} {w w1 : World P O F} {sz : Nat} (h : SpaceAt w p)
    (hu : w.there (.user p)) (hk : w.there (.kern p)) (hi : w.there (.image p))
    (hfits : Fits sz (w.leaf (.image p)))
    (h1 : Eff w w1 (w.leaf.reload (.image p) (.kern p) (copied (pgroundup (w.proc p).sz))
      (copied (pgroundup sz)))) :
    Ensures (execCommit p (w.proc p).sz (pgroundup sz)) w1 fun _ w' ↦
      Self p w w' ∧ SpaceAt w' p := by
  unfold execCommit
  apply (vmaDestroyAll_spec w1 p (by rw [h1.core.there, hu]) (by rw [h1.core.there, hk])).bind
  rintro _ w2 ⟨ns, h2, hns⟩
  rw [h1.core.proc] at hns
  have hsame : ∀ t, t ≠ .user p → t ≠ .kern p → w2.leaf t = w.leaf t := by
    intro t hu hk
    rw [h2.leaf, Leaves.unmap_ne _ _ _ hu hk, h1.leaf, Leaves.reload_ne _ hk]
  have hthere : ∀ t, w2.there t = w.there t := fun t ↦ (h2.there t).trans (h1.core.there t)
  apply (swapTables_spec w2 p).bind
  rintro _ w3 ⟨hproc3, huser3, hthere3, hrest3⟩
  have hset : Ensures (setProc p fun q ↦ { q with sz := pgroundup sz }) w3 fun _ w' ↦
      w'.leaf = w3.leaf ∧ (∀ t, w'.there t = w3.there t) ∧ w'.proc = update w.proc p
        { w.proc p with sz := pgroundup sz, vmas := fun _ ↦ none } := by
    unfold setProc
    rw [ensures_modify]
    refine ⟨rfl, fun _ ↦ rfl, ?_⟩
    dsimp only
    rw [hproc3, h2.proc, h1.core.proc]
    simp
  apply hset.bind
  rintro _ w4 ⟨hleaf4, hthere4, hproc4⟩
  apply (procFreepagetable_at w4 _ _).mono
  intro _ w5 h5
  have hproc : w5.proc = update w.proc p
      { w.proc p with sz := pgroundup sz, vmas := fun _ ↦ none } := by rw [h5.proc, hproc4]
  have huser : w5.leaf (.user p) = w.leaf (.image p) := by
    rw [h5.leaf _ (by simp), hleaf4, huser3, hsame _ (by simp) (by simp)]
  have hkern : w5.leaf (.kern p) = w2.leaf (.kern p) := by
    rw [h5.leaf _ (by simp), hleaf4, (hrest3 _ (by simp) (by simp)).1]
  constructor
  · refine ⟨?_, ?_, ?_, ?_⟩
    · intro q hq
      rw [hproc, update_of_ne hq]
    · rw [hproc, update_self]
    · intro t hu hk hi
      rw [h5.leaf t hi, hleaf4, (hrest3 t hu hi).1, hsame t hu hk]
    · intro t ht hw
      rw [h5.there t ht, hthere4]
      by_cases hut : t = .user p
      · rw [hut, hthere3, hthere, hi]
      · rw [(hrest3 t hut ht).2, hthere, hw]
  · unfold SpaceAt
    rw [hproc, huser, hkern, update_self, h2.leaf, Leaves.unmap_kern, h1.leaf,
      Leaves.reload_same _ (by simp)]
    exact Space.committed h hfits hns

/-- `exec` ends with an address space, whether it succeeds or not. -/
theorem exec_spec (b : Boot P) {p : P} {w : World P O F} (img : Image) (h : SpaceAt w p)
    (hu : w.there (.user p)) (hk : w.there (.kern p)) :
    Ensures (exec b p img) w fun _ w' ↦ Self p w w' ∧ SpaceAt w' p := by
  have hfree : ∀ {w1 : World P O F} (sz : Nat), Self p w w1 → SpaceAt w1 p →
      Ensures (procFreepagetable (.image p) sz) w1 fun _ w' ↦ Self p w w' ∧ SpaceAt w' p := by
    intro w1 sz h1 hs1
    apply (procFreepagetable_at w1 _ sz).mono
    intro _ w2 h2
    exact ⟨h1.trans h2.self, hs1.at h2⟩
  unfold exec
  rw [ensures_bind, ensures_get, ensures_bind]
  apply (elock_quiet w).mono
  intro _ w1 h1
  have hat1 := h1.at (.image p)
  rw [ensures_ite, ensures_pure]
  refine ⟨fun _ ↦ ⟨hat1.self, h.at hat1⟩, fun _ ↦ ?_⟩
  apply (procPagetable_spec b w1 (.image p) _).bind
  rintro ok w2 ⟨h2, hblank⟩
  have hat2 := hat1.trans h2
  rw [ensures_ite, ensures_pure]
  refine ⟨fun hok ↦ ?_, fun _ ↦ ⟨hat2.self, h.at hat2⟩⟩
  have hb2 : Below (.image p) w2 0 := by
    intro n e hn he
    rw [(hblank hok).leaf n hn] at he
    cases he
  apply (loadSegs_spec (.image p) img.segs hb2).bind
  rintro ⟨loaded, sz⟩ w3 ⟨h3, hb3⟩
  have hat3 := hat2.trans h3.at
  dsimp only
  rw [ensures_ite]
  constructor
  · intro _
    simp only [ensures_bind, ensures_pure]
    exact hfree sz hat3.self (h.at hat3)
  · intro hloaded
    rw [Bool.not_eq_false] at hloaded
    apply (uvmStackInit_spec (hb3 hloaded)).bind
    rintro ok w4 ⟨h4, hfits⟩
    have hat4 := hat3.trans h4.at
    have hs4 := h.at hat4
    have hthere4 : ∀ t, t ≠ .image p → w4.there t = w.there t := hat4.there
    rw [ensures_ite]
    constructor
    · intro hok'
      have hi4 : w4.there (.image p) = true := by
        rw [h4.core.there, h3.core.there, (hblank hok).there]
      apply (execStage_spec w4 p _ _).bind
      intro _ w5 h5
      have hsz : (w.proc p).sz = (w4.proc p).sz := by rw [hat4.proc]
      rw [hsz] at h5 ⊢
      apply (execArgs_quiet w5 p img.argv).bind
      intro r w6 h6
      have h6' := h6.eff
      rw [h5.leaf] at h6'
      have h56 := h5.trans h6'
      cases r with
      | none =>
        simp only [ensures_bind, ensures_pure]
        apply (execRestore_spec w6 p _ _).mono
        intro _ w7 h7
        rw [h6'.leaf] at h7
        have h57 := h56.trans h7
        have hown : Own p w4 w7 := by
          apply h57.tab.own
          intro t _ hk
          rw [Leaves.reload_ne _ hk, Leaves.reload_ne _ hk]
        apply hfree _ (hat4.self.trans hown.self)
        unfold SpaceAt
        rw [h57.core.proc, h57.leaf, Leaves.reload_ne _ (by simp), Leaves.reload_ne _ (by simp),
          Leaves.reload_same _ (by simp), Leaves.reload_ne _ (by simp),
          Leaves.reload_same _ (by simp)]
        exact ⟨hs4.layout, hs4.foot, hs4.mirror.restored, hs4.resident⟩
      | some r =>
        simp only [ensures_bind, ensures_pure]
        apply (execCommit_spec hs4 (by rw [hthere4 _ (by simp), hu])
          (by rw [hthere4 _ (by simp), hk]) hi4 (hfits hok') h56).mono
        rintro _ w7 ⟨hself, hspace⟩
        exact ⟨hat4.self.trans hself, hspace⟩
    · intro _
      simp only [ensures_bind, ensures_pure]
      exact hfree _ hat4.self hs4

end Xv6K210.Vm
