import Xv6K210.Vm.TallyEntries

/-!
# Objects in the tally

The pages of an object are its own until it is destroyed. A fault operation brings a
page into hand: a new one, or the one that the object has for the place of the fault.
-/

namespace Xv6K210.Vm

open Xv6K210.Base Prog Function

variable {P O F : Type} {ct : Owner P O → Option (Nat → UInt8)} {fr : P → Option Nat}
  {hs : List Nat}
  {w : World P O F}

/-! ### Files -/

section

variable [DecidableEq F]

/-- `filedup` keeps owners and quotas. -/
theorem filedup_tally (f : F) :
    Ensures (filedup f) w fun _ w' ↦ Alike w w' ∧ w'.quota = w.quota ∧ w'.mem = w.mem := by
  unfold filedup
  simp only [ensures_bind, ensures_get, ensures_ite, ensures_halt, ensures_set]
  exact ⟨fun _ ↦ trivial, fun _ ↦ ⟨⟨rfl, rfl, fun _ ↦ rfl, fun _ ↦ rfl⟩, trivial, trivial⟩⟩

/-- `fileclose` keeps owners and quotas. -/
theorem fileclose_tally (f : F) :
    Ensures (fileclose f) w fun _ w' ↦ Alike w w' ∧ w'.quota = w.quota ∧ w'.mem = w.mem := by
  unfold fileclose
  simp only [ensures_bind, ensures_get, ensures_ite, ensures_halt, ensures_set]
  exact ⟨fun _ ↦ trivial, fun _ ↦ ⟨fun _ ↦ ⟨⟨rfl, rfl, fun _ ↦ rfl, fun _ ↦ rfl⟩, trivial, trivial⟩,
    fun _ ↦ ⟨⟨rfl, rfl, fun _ ↦ rfl, fun _ ↦ rfl⟩, trivial, trivial⟩⟩⟩

omit [DecidableEq F] in
/-- Nothing changes. -/
theorem Alike.refl (w : World P O F) : Alike w w := ⟨rfl, rfl, fun _ ↦ rfl, fun _ ↦ rfl⟩

omit [DecidableEq F] in
/-- Steps that keep the owners compose. -/
theorem Alike.trans {w' w'' : World P O F} (h : Alike w w') (h' : Alike w' w'') : Alike w w'' :=
  ⟨by rw [h'.pt, h.pt], by rw [h'.obj, h.obj], fun p ↦ by rw [h'.kstack, h.kstack],
    fun p ↦ by rw [h'.vmas, h.vmas]⟩

private theorem filecloses_tally (fs : List F) :
    Ensures (forEach fileclose fs) w fun _ w' ↦
      Alike w w' ∧ w'.quota = w.quota ∧ w'.mem = w.mem := by
  apply ensures_forEach (fun _ w' ↦ Alike w w' ∧ w'.quota = w.quota ∧ w'.mem = w.mem) _
    ⟨.refl w, rfl, rfl⟩
  rintro f fs w1 ⟨h1, hq1, hm1⟩
  apply (fileclose_tally f).mono
  rintro _ w2 ⟨h2, hq2, hm2⟩
  exact ⟨h1.trans h2, hq2.trans hq1, hm2.trans hm1⟩

end

/-! ### Lists of shared pages -/

private theorem anonFind_eq_some {l : List (Nat × Nat)} (hl : (l.map Prod.fst).Nodup) {i pa : Nat} :
    anonFind l i = some pa ↔ (i, pa) ∈ l := by
  unfold anonFind
  rw [Option.map_eq_some_iff]
  constructor
  · rintro ⟨⟨j, c⟩, hfind, rfl⟩
    have hj := List.find?_some hfind
    rw [beq_iff_eq] at hj
    cases hj
    exact List.mem_of_find?_eq_some hfind
  · intro hmem
    refine ⟨(i, pa), ?_, rfl⟩
    induction l with
    | nil => cases hmem
    | cons x l ih =>
      rw [List.map_cons, List.nodup_cons] at hl
      rcases List.mem_cons.mp hmem with rfl | hmem
      · exact List.find?_cons_of_pos (beq_self_eq_true i)
      · rw [List.find?_cons_of_neg, ih hl.2 hmem]
        intro hx
        rw [beq_iff_eq] at hx
        exact hl.1 (hx ▸ List.mem_map_of_mem (f := Prod.fst) hmem)

private theorem anonFind_cons (l : List (Nat × Nat)) (i j pa : Nat) :
    anonFind ((i, pa) :: l) j = if i = j then some pa else anonFind l j := by
  unfold anonFind
  by_cases hij : i = j
  · rw [if_pos hij, List.find?_cons_of_pos (by rw [beq_iff_eq]; exact hij)]
    rfl
  · rw [if_neg hij, List.find?_cons_of_neg (by rw [beq_iff_eq]; exact hij)]

private theorem anonFind_eq_none {l : List (Nat × Nat)} {i : Nat} :
    anonFind l i = none ↔ i ∉ l.map Prod.fst := by
  unfold anonFind
  rw [Option.map_eq_none_iff, List.find?_eq_none, List.mem_map]
  constructor
  · rintro h ⟨x, hx, rfl⟩
    exact h x hx (beq_self_eq_true x.1)
  · intro h x hx hbeq
    rw [beq_iff_eq] at hbeq
    exact h ⟨x, hx, hbeq⟩

/-! ### Replacing an object -/

section

variable [DecidableEq O]

/-- An object is replaced, seen from the owners outside of it. -/
theorem World.setObj_owns (w : World P O F) (o : O) (x : Option (MmapObject F)) {z : Owner P O}
    (hz : ∀ i, z ≠ .anon o i ∧ z ≠ .kbuf o i) :
    World.owns { w with obj := update w.obj o x } fr z = w.owns fr z := by
  cases z with
  | anon o' i =>
    have ho : o' ≠ o := by
      rintro rfl
      exact (hz i).1 rfl
    simp only [World.owns, update_of_ne ho]
  | kbuf o' i =>
    have ho : o' ≠ o := by
      rintro rfl
      exact (hz i).2 rfl
    simp only [World.owns, update_of_ne ho]
  | _ => rfl

private theorem keyed_update {obj : O → Option (MmapObject F)} {o : O} {x' : Option (MmapObject F)}
    (h : ∀ o x, obj o = some x → ((x.anon.getD []).map Prod.fst).Nodup)
    (hx' : ∀ x, x' = some x → ((x.anon.getD []).map Prod.fst).Nodup) (o' : O) (x : MmapObject F)
    (hx : update obj o x' o' = some x) : ((x.anon.getD []).map Prod.fst).Nodup := by
  by_cases ho : o' = o
  · subst ho
    rw [update_self] at hx
    exact hx' x hx
  · rw [update_of_ne ho] at hx
    exact h o' x hx

/-- An object is replaced, and owners do not see it. -/
theorem Tally.setObj (h : Tally ct fr hs w) {o : O} {x : Option (MmapObject F)}
    (howns : World.owns { w with obj := update w.obj o x } fr = w.owns fr)
    (hx : ∀ y, x = some y → ((y.anon.getD []).map Prod.fst).Nodup) :
    Tally ct fr hs { w with obj := update w.obj o x } := by
  refine ⟨?_, ?_, h.few, ?_, keyed_update h.keyed hx, ?_, h.base, h.stack, ?_⟩
  · rw [howns]
    exact h.count
  · rw [howns]
    exact h.once
  · rw [howns]
    exact h.null
  · rw [howns]
    exact h.member
  · rw [howns]
    exact h.kept

/-- An object changes in its count only. -/
theorem Tally.setObj_same (h : Tally ct fr hs w) {o : O} {x x' : MmapObject F}
    (hx : w.obj o = some x) (hanon : x'.anon = x.anon) (hkbuf : x'.kbuf = x.kbuf) :
    Tally ct fr hs { w with obj := update w.obj o (some x') } := by
  have howns : World.owns { w with obj := update w.obj o (some x') } fr = w.owns fr := by
    funext z
    by_cases hz : ∃ i, z = .anon o i ∨ z = .kbuf o i
    · obtain ⟨i, rfl | rfl⟩ := hz
      · simp only [World.owns, update_self, hx, Option.bind_some, hanon]
      · simp only [World.owns, update_self, hx, Option.bind_some, hkbuf]
    · exact w.setObj_owns o _ fun i ↦
        ⟨fun hi ↦ hz ⟨i, .inl hi⟩, fun hi ↦ hz ⟨i, .inr hi⟩⟩
  refine h.setObj howns ?_
  rintro _ ⟨⟩
  rw [hanon]
  exact h.keyed o x hx

omit [DecidableEq O] in
/-- What an object has, as a list. -/
theorem World.encard_object (w : World P O F) {o : O} {x : MmapObject F} (hx : w.obj o = some x)
    (hkeyed : ((x.anon.getD []).map Prod.fst).Nodup) (a : Nat) :
    {z : Owner P O | (∃ i, z = .anon o i ∨ z = .kbuf o i) ∧ w.owns fr z = some a}.encard =
      ((x.anon.getD []).map Prod.snd ++ x.kbuf.getD []).count a := by
  have hanon : ∀ a, {z : Owner P O | (∃ i, z = .anon o i) ∧ w.owns fr z = some a}.encard =
      ((x.anon.getD []).map Prod.snd).count a := by
    intro a
    refine encard_keyed hkeyed (g := Owner.anon o) ?_ (fun z ↦ Iff.rfl) fun k c ↦ ?_
    · intro k k' hk
      cases hk
      rfl
    · rw [← anonFind_eq_some hkeyed]
      change ((w.obj o).bind (·.anon)).bind (anonFind · k) = some c ↔ _
      rw [hx, Option.bind_some]
      cases x.anon with
      | none => rfl
      | some l => rfl
  have hkbuf : ∀ a, {z : Owner P O | (∃ i, z = .kbuf o i) ∧ w.owns fr z = some a}.encard =
      (x.kbuf.getD []).count a := by
    intro a
    refine encard_indexed (g := Owner.kbuf o) ?_ (fun z ↦ Iff.rfl) fun k ↦ ?_
    · intro k k' hk
      cases hk
      rfl
    · change ((w.obj o).bind (·.kbuf)).bind (·[k]?) = _
      rw [hx, Option.bind_some]
      cases x.kbuf with
      | none => rfl
      | some l => rfl
  refine encard_append (fun z a ↦ ?_) ?_ hanon hkbuf a
  · simp only [exists_or]
  · rintro z ⟨i, rfl⟩ ⟨j, hj⟩
    cases hj

/-- An object that was not there, or had no page, comes without pages. -/
theorem Tally.setObj_empty (h : Tally ct fr hs w) {o : O} (ho : w.obj o = none) {x : MmapObject F}
    (hanon : x.anon.getD [] = []) (hkbuf : x.kbuf.getD [] = []) :
    Tally ct fr hs { w with obj := update w.obj o (some x) } := by
  have howns : World.owns { w with obj := update w.obj o (some x) } fr = w.owns fr := by
    funext z
    by_cases hz : ∃ i, z = .anon o i ∨ z = .kbuf o i
    · obtain ⟨i, rfl | rfl⟩ := hz
      · simp only [World.owns, update_self, ho, Option.bind_some, Option.bind_none]
        cases hx : x.anon with
        | none => rfl
        | some l =>
          rw [hx] at hanon
          rw [show l = [] from hanon]
          rfl
      · simp only [World.owns, update_self, ho, Option.bind_some, Option.bind_none]
        cases hx : x.kbuf with
        | none => rfl
        | some l =>
          rw [hx] at hkbuf
          rw [show l = [] from hkbuf]
          rfl
    · exact w.setObj_owns o _ fun i ↦
        ⟨fun hi ↦ hz ⟨i, .inl hi⟩, fun hi ↦ hz ⟨i, .inr hi⟩⟩
  refine h.setObj howns ?_
  rintro _ ⟨⟩
  rw [hanon]
  exact List.nodup_nil

/-- A buffer takes its pages. -/
theorem Tally.setObj_kbuf {pas : List Nat} (h : Tally ct fr (pas ++ hs) w) {o : O}
    (ho : w.obj o = none) (hone : ∀ pa ∈ pas, w.quota pa = 1) {x : MmapObject F}
    (hanon : x.anon = none) (hkbuf : x.kbuf = some pas) :
    Tally ct fr hs { w with obj := update w.obj o (some x) } := by
  have hx : (update w.obj o (some x)) o = some x := update_self ..
  refine h.gain_list hone (C := fun z ↦ ∃ i, z = .anon o i ∨ z = .kbuf o i) (fun z hz ↦ ?_) ?_
    (fun a ↦ ?_) ?_ rfl ?_ rfl h.stack rfl
  · exact w.setObj_owns o _ fun i ↦ ⟨fun hi ↦ hz ⟨i, .inl hi⟩, fun hi ↦ hz ⟨i, .inr hi⟩⟩
  · rintro z ⟨i, rfl | rfl⟩
    · simp only [World.owns, ho, Option.bind_none]
    · simp only [World.owns, ho, Option.bind_none]
  · rw [World.encard_object _ hx, hanon, hkbuf]
    · rfl
    · rw [hanon]
      exact List.nodup_nil
  · rintro z ⟨i, rfl | rfl⟩ <;> rfl
  · refine keyed_update h.keyed ?_
    rintro _ ⟨⟩
    rw [hanon]
    exact List.nodup_nil

omit [DecidableEq O] in
/-- The page that an object has for an index. -/
theorem World.owns_anon {o : O} {x : MmapObject F} (hx : w.obj o = some x) (i : Nat) :
    w.owns fr (.anon o i) = anonFind (x.anon.getD []) i := by
  change ((w.obj o).bind (·.anon)).bind (anonFind · i) = _
  rw [hx, Option.bind_some]
  cases x.anon with
  | none => rfl
  | some l => rfl

/-- A page in hand that nobody else has goes into the list of an object. -/
theorem Tally.setObj_anon {pa : Nat} (h : Tally ct fr (pa :: hs) w) (hone : w.quota pa = 1) {o : O}
    {x : MmapObject F} (hx : w.obj o = some x) {index : Nat}
    (hnone : anonFind (x.anon.getD []) index = none) :
    Tally ct fr hs { w with
      obj := update w.obj o
        (some { x with anon := some ((index, pa) :: x.anon.getD []) }) } := by
  have hself : (update w.obj o
      (some { x with anon := some ((index, pa) :: x.anon.getD []) })) o = _ :=
    update_self ..
  refine h.gain_fresh hone (x := .anon o index) (fun z hz ↦ ?_) ?_ ?_ rfl nofun ?_ rfl h.stack rfl
  · by_cases hzo : ∃ i, z = .anon o i ∨ z = .kbuf o i
    · obtain ⟨i, rfl | rfl⟩ := hzo
      · have hi : index ≠ i := by
          rintro rfl
          exact hz rfl
        rw [World.owns_anon hself, World.owns_anon hx, Option.getD_some, anonFind_cons,
          if_neg hi]
      · simp only [World.owns, update_self, hx, Option.bind_some]
    · exact w.setObj_owns o _ fun i ↦
        ⟨fun hi ↦ hzo ⟨i, .inl hi⟩, fun hi ↦ hzo ⟨i, .inr hi⟩⟩
  · rw [World.owns_anon hx, hnone]
  · rw [World.owns_anon hself, Option.getD_some, anonFind_cons, if_pos rfl]
  · refine keyed_update h.keyed ?_
    rintro _ ⟨⟩
    rw [Option.getD_some, List.map_cons, List.nodup_cons]
    exact ⟨anonFind_eq_none.mp hnone, h.keyed o x hx⟩

/-! ### The routines on objects -/

/-- With the last reference to an object nothing is told of its pages. -/
def World.Spare (w : World P O F) (ct : Owner P O → Option (Nat → UInt8)) (o : O) : Prop :=
  ∀ x, w.obj o = some x → x.refcnt = 1 → ∀ z b, z.backing = some (o, b) → ct z = none

/-- Of the pages of objects nothing is told. -/
def NoObjects (ct : Owner P O → Option (Nat → UInt8)) : Prop :=
  ∀ z b, z.backing = some b → ct z = none

omit [DecidableEq O] in
/-- No object is counted. -/
theorem NoObjects.spare (h : NoObjects ct) (o : O) : w.Spare ct o := fun _ _ _ z _ hz ↦ h z _ hz

/-- A reference keeps the tally. -/
theorem mmapObjectGet_tally (h : Tally ct fr hs w) (o : Option O) :
    Ensures (mmapObjectGet o) w fun _ w' ↦ Tally ct fr hs w' := by
  unfold mmapObjectGet
  rw [ensures_bind, ensures_get]
  split
  · rename_i x o hx
    rw [ensures_ite]
    refine ⟨fun _ ↦ ensures_halt, fun _ ↦ ?_⟩
    unfold setObj
    rw [ensures_modify]
    exact h.setObj_same (x := x) hx rfl rfl
  · exact ensures_halt

section

variable [Fintype P] (hP : Fintype.card P ≤ nproc) [DecidableEq F]

include hP

/-- `mmap_object_put`: with the last reference the pages of the object are freed. -/
theorem mmapObjectPut_tally (h : Tally ct fr hs w) (o : O) (hct : w.Spare ct o) :
    Ensures (mmapObjectPut o) w fun _ w' ↦ Tally ct fr hs w' := by
  unfold mmapObjectPut
  rw [ensures_bind, ensures_get]
  split
  · exact ensures_halt
  · rename_i x hx
    simp only [ensures_ite]
    refine ⟨fun _ ↦ ensures_halt, fun _ ↦ ⟨fun hlast ↦ ?_, fun _ ↦ ?_⟩⟩
    · have hlist : ∀ a,
        {z : Owner P O | (∃ i, z = .anon o i ∨ z = .kbuf o i) ∧ w.owns fr z = some a}.encard = _ :=
        w.encard_object hx (h.keyed o x hx)
      have hle := h.count_le hlist
      have hlt : ∀ c, w.quota c < 256 := fun c ↦ lt_trans (h.quota_lt hP) (by decide)
      have hsplit : ∀ c, ((x.anon.getD []).map Prod.snd ++ x.kbuf.getD []).count c =
          ((x.anon.getD []).map Prod.snd).count c + (x.kbuf.getD []).count c := fun c ↦
        List.count_append
      unfold mmapObjectDestroy
      simp only [ensures_bind]
      apply (filecloses_tally _).mono
      rintro _ w1 ⟨h1, hq1, hm1⟩
      refine (kfreePages_quota _ (fun c ↦ ?_) fun c ↦ ?_).mono ?_
      · have := hle c
        rw [hsplit] at this
        rw [hq1]
        omega
      · rw [hq1]
        exact hlt c
      rintro _ w2 ⟨h2, hq2, hm2⟩
      refine (kfreePages_quota _ (fun c ↦ ?_) fun c ↦ ?_).mono ?_
      · have h1 := hle c
        have h2 := hq2 c
        rw [hsplit] at h1
        rw [hq1] at h2
        omega
      · have h1 := hlt c
        have h2 := hq2 c
        rw [hq1] at h2
        omega
      rintro _ w3 ⟨h3, hq3, hm3⟩
      have hall : Alike w w3 := (h1.trans h2.alike).trans h3.alike
      unfold setObj
      rw [ensures_modify]
      refine h.drop (C := fun z ↦ ∃ i, z = .anon o i ∨ z = .kbuf o i) (fun z hz ↦ ?_) ?_ hlist
        ?_ h.few (fun c ↦ ?_) ?_ hall.place (fun p ↦ ?_) ?_ fun c hc ↦ ?_
      · rw [w3.setObj_owns o _ fun i ↦ ⟨fun hi ↦ hz ⟨i, .inl hi⟩, fun hi ↦ hz ⟨i, .inr hi⟩⟩,
          hall.owns]
      · rintro z ⟨i, rfl | rfl⟩
        · simp only [World.owns, update_self, Option.bind_none]
        · simp only [World.owns, update_self, Option.bind_none]
      · rintro t ⟨i, hi | hi⟩
        · cases hi
        · cases hi
      · have h2 := hq2 c
        have h3 := hq3 c
        rw [hq1] at h2
        change w3.quota c + _ + _ = _
        rw [hsplit]
        omega
      · refine keyed_update ?_ (by rintro _ ⟨⟩)
        rw [hall.obj]
        exact h.keyed
      · change (w3.proc p).kstack = 0 ∨ (w3.proc p).kstack = kstackPage
        rw [hall.kstack]
        exact h.stack p
      · rintro z ⟨i, rfl | rfl⟩
        · exact hct x hx hlast _ i rfl
        · exact hct x hx hlast _ i rfl
      · change w3.quota c ≠ 0 at hc
        have h3 := hq3 c
        exact (hm3 c hc).trans ((hm2 c (by omega)).trans (congrFun hm1 c))
    · unfold setObj
      rw [ensures_modify]
      exact h.setObj_same hx rfl rfl

/-- The end of a reference keeps the tally. -/
theorem putIfAny_tally (h : Tally ct fr hs w) (o : Option O)
    (hct : ∀ o', o = some o' → w.Spare ct o') :
    Ensures (putIfAny o) w fun _ w' ↦ Tally ct fr hs w' := by
  cases o with
  | none =>
    rw [putIfAny, ensures_pure]
    exact h
  | some o => exact mmapObjectPut_tally hP h o (hct o rfl)

omit [DecidableEq O] [DecidableEq F] in
/-- The pages of a new buffer are in hand, or freed again. -/
theorem kbufPages_tally (k : Nat) (acc : List Nat) (h : Tally ct fr (acc ++ hs) w)
    (hone : ∀ pa ∈ acc, w.quota pa = 1) :
    Ensures (kbufPages k acc) w fun r w' ↦ Quiet w w' ∧
      match r with
      | none => Tally ct fr hs w'
      | some pas => Tally ct fr (pas ++ hs) w' ∧ ∀ pa ∈ pas, w'.quota pa = 1 := by
  induction k generalizing acc w with
  | zero =>
    rw [kbufPages, ensures_pure]
    exact ⟨.refl w, h, hone⟩
  | succ k ih =>
    rw [kbufPages, ensures_bind]
    apply kmalloc_tally.mono
    rintro b w1 ⟨hq1, hquota1, hmem1⟩
    have h1 := h.quiet hq1 hquota1 hmem1
    have hfail : ∀ w2 : World P O F, Quiet w w2 → Tally ct fr (acc ++ hs) w2 →
        Ensures (forEach kfreePage acc >>= fun _ ↦ pure none) w2 fun r w' ↦ Quiet w w' ∧
          match r with
          | none => Tally ct fr hs w'
          | some pas => Tally ct fr (pas ++ hs) w' ∧ ∀ pa ∈ pas, w'.quota pa = 1 := by
      intro w2 hq2 h2
      simp only [ensures_bind, ensures_pure]
      apply (kfreePages_tally hP h2).mono
      rintro _ w3 ⟨hq3, h3⟩
      exact ⟨hq2.trans hq3, h3⟩
    rw [ensures_ite]
    refine ⟨fun _ ↦ ?_, fun _ ↦ hfail w1 hq1 h1⟩
    apply (kallocPage_tally h1).bind
    rintro r w2 ⟨hq2, hs2, hr⟩
    cases r with
    | none => exact hfail w2 (hq1.trans hq2) hr
    | some pa =>
      obtain ⟨h2, hfree, hpa⟩ := hr
      apply (zeroPage_tally h2 hpa).bind
      rintro _ w3 ⟨hq3, hquota3, h3⟩
      have hperm : (pa :: (acc ++ hs)).Perm ((acc ++ [pa]) ++ hs) := by
        rw [List.append_assoc]
        exact List.perm_middle.symm
      refine (ih (acc ++ [pa]) (h3.perm hperm) fun c hc ↦ ?_).mono ?_
      · rw [hquota3]
        rcases List.mem_append.mp hc with hc | hc
        · apply hs2.one
          rw [hquota1]
          exact hone c hc
        · rw [List.mem_singleton] at hc
          rw [hc, hpa]
      · rintro r w4 ⟨hq4, hr⟩
        exact ⟨((hq1.trans hq2).trans hq3).trans hq4, hr⟩

omit [DecidableEq O] [DecidableEq F] in
private theorem kbufCreate_tally (h : Tally ct fr hs w) (size : Nat) :
    Ensures (kbufCreate size) w fun r w' ↦ Quiet w w' ∧
      match r with
      | none => Tally ct fr hs w'
      | some pas => Tally ct fr (pas ++ hs) w' ∧ ∀ pa ∈ pas, w'.quota pa = 1 := by
  unfold kbufCreate
  simp only [ensures_ite, ensures_pure, ensures_bind]
  refine ⟨fun _ ↦ ⟨.refl w, h⟩, fun _ ↦ ?_⟩
  apply kmalloc_tally.mono
  rintro b w1 ⟨hq1, hquota1, hmem1⟩
  have h1 := h.quiet hq1 hquota1 hmem1
  refine ⟨fun _ ↦ ?_, fun _ ↦ ⟨hq1, h1⟩⟩
  apply (kbufPages_tally hP _ [] h1 (by simp)).mono
  rintro r w2 ⟨hq2, hr⟩
  exact ⟨hq1.trans hq2, hr⟩

omit [Fintype P] hP [DecidableEq O] [DecidableEq F] in
private theorem mmapObjectAlloc_tally :
    Ensures mmapObjectAlloc w fun r w' ↦ Quiet w w' ∧ w'.quota = w.quota ∧ w'.mem = w.mem ∧
      ∀ o, r = some o → w.obj o = none := by
  refine (mmapObjectAlloc_quiet w).and ?_
  unfold mmapObjectAlloc
  rw [ensures_bind, ensures_get]
  split
  · rename_i o _ _
    rw [ensures_bind, ensures_set, ensures_pure]
    refine ⟨rfl, rfl, fun o' ho ↦ ?_⟩
    split_ifs at ho with hnone
    cases ho
    exact Option.isNone_iff_eq_none.mp hnone
  · rw [ensures_bind, ensures_set, ensures_pure]
    exact ⟨rfl, rfl, nofun⟩
  · rw [ensures_pure]
    exact ⟨rfl, rfl, nofun⟩

/-- A new object is where none was. -/
theorem mmapObjectCreate_tally (h : Tally ct fr hs w) (type : VmaType) (file : Option F)
    (flags size : Nat) :
    Ensures (mmapObjectCreate type file flags size) w fun r w' ↦
      Tally ct fr hs w' ∧ ∀ o, r = some o → w.obj o = none := by
  unfold mmapObjectCreate
  apply mmapObjectAlloc_tally.bind
  rintro r w1 ⟨hq1, hquota1, hmem1, hr⟩
  have h1 := h.quiet hq1 hquota1 hmem1
  cases r with
  | none =>
    rw [ensures_pure]
    exact ⟨h1, nofun⟩
  | some o =>
    have ho := hr o rfl
    have ho1 : w1.obj o = none := by rw [hq1.obj, ho]
    have hgone : ∀ o', some o = some o' → w.obj o' = none := by
      rintro _ ⟨⟩
      exact ho
    cases type with
    | file =>
      cases file with
      | none => exact ensures_halt
      | some f =>
        simp only [ensures_bind, ensures_pure]
        apply (filedup_tally f).mono
        rintro _ w2 ⟨ha2, hquota2, hmem2⟩
        have h2 := h1.alike ha2 hquota2 hmem2
        unfold setObj
        rw [ensures_modify]
        exact ⟨h2.setObj_empty (by rw [ha2.obj, ho1]) rfl rfl, hgone⟩
    | anon =>
      simp only [ensures_ite]
      refine ⟨fun _ ↦ ?_, fun _ ↦ ?_⟩
      · apply kmalloc_tally.bind
        rintro b w2 ⟨hq2, hquota2, hmem2⟩
        have h2 := h1.quiet hq2 hquota2 hmem2
        simp only [ensures_ite, ensures_bind, ensures_pure]
        refine ⟨fun _ ↦ ?_, fun _ ↦ ⟨h2, nofun⟩⟩
        unfold setObj
        rw [ensures_modify]
        exact ⟨h2.setObj_empty (by rw [hq2.obj, ho1]) rfl rfl, hgone⟩
      · simp only [ensures_bind, ensures_pure]
        unfold setObj
        rw [ensures_modify]
        exact ⟨h1.setObj_empty ho1 rfl rfl, hgone⟩
    | kbuf =>
      simp only [ensures_bind]
      apply (kbufCreate_tally hP h1 size).mono
      rintro r w2 ⟨hq2, hr⟩
      cases r with
      | none =>
        rw [ensures_pure]
        exact ⟨hr, nofun⟩
      | some pas =>
        cases file with
        | none => exact ensures_halt
        | some f =>
          obtain ⟨h2, hone⟩ := hr
          simp only [ensures_bind, ensures_pure]
          apply (filedup_tally f).mono
          rintro _ w3 ⟨ha3, hquota3, hmem3⟩
          have h3 := h2.alike ha3 hquota3 hmem3
          unfold setObj
          rw [ensures_modify]
          refine ⟨h3.setObj_kbuf ?_ (fun pa hpa ↦ ?_) rfl rfl, hgone⟩
          · rw [ha3.obj, hq2.obj, ho1]
          · rw [hquota3]
            exact hone pa hpa

end

/-! ### Fault operations -/

/-- A page that a fault operation answers is in hand. -/
def Brought (ct : Owner P O → Option (Nat → UInt8)) (fr : P → Option Nat) (hs : List Nat) (p : P)
    (n : Nat) (r : Option Nat)
    (w : World P O F) : Prop :=
  match r with
  | none => Tally ct fr hs w
  | some pa => Tally ct fr (pa :: hs) w ∧ w.Brings fr p n pa

omit [DecidableEq O] in
private theorem filereadAt_tally (f : F) (pa offset n : Nat) :
    Ensures (filereadAt f pa offset n) w fun _ w' ↦ Quiet w w' ∧ w'.quota = w.quota ∧
      ∀ c, c ≠ pa → w'.mem c = w.mem c := by
  refine (filereadAt_quiet w f pa offset n).and ?_
  unfold filereadAt elock
  simp only [ensures_bind, ensures_get, ensures_ite, ensures_pure, ensures_modify]
  exact ⟨fun _ ↦ ⟨trivial, fun _ _ ↦ trivial⟩, fun _ ↦ ⟨trivial, fun c hc ↦ update_of_ne hc ..⟩⟩

section

variable [Fintype P] (hP : Fintype.card P ≤ nproc)

include hP

omit [DecidableEq O] in
private theorem mmapFileFault_tally (h : Tally ct fr hs w) (p : P) (v : Vma O) (n : Nat) :
    Ensures (mmapFileFault v n) w fun r w' ↦ Brought ct fr hs p n r w' := by
  have hfail : ∀ (w1 : World P O F) (pa : Nat), Tally ct fr (pa :: hs) w1 →
      Ensures (kfreePage pa >>= fun _ ↦ pure none) w1 fun r w' ↦ Brought ct fr hs p n r w' := by
    intro w1 pa h1
    simp only [ensures_bind, ensures_pure]
    exact (kfreePage_tally hP h1).mono fun _ _ h2 ↦ h2.2
  unfold mmapFileFault
  apply (kallocPage_tally h).bind
  rintro r w1 ⟨hq1, hs1, hr⟩
  cases r with
  | none =>
    rw [ensures_pure]
    exact hr
  | some pa =>
    obtain ⟨h1, -, hone⟩ := hr
    apply (zeroPage_tally h1 hone).bind
    rintro _ w2 ⟨hq2, hquota2, h2⟩
    have hone2 : w2.quota pa = 1 := by rw [hquota2, hone]
    simp only [ensures_ite, ensures_pure]
    refine ⟨fun _ ↦ hfail w2 pa h2, fun _ ↦ ⟨fun _ ↦ ⟨h2, .inl hone2⟩, fun _ ↦ ?_⟩⟩
    rw [ensures_bind, ensures_get]
    split
    · exact ensures_halt
    · apply (filereadAt_tally _ pa _ _).bind
      rintro b w3 ⟨hq3, hquota3, hmem3⟩
      have h3 := h2.write hone2 hq3 hquota3 hmem3
      rw [ensures_ite, ensures_pure]
      refine ⟨fun _ ↦ ⟨h3, .inl ?_⟩, fun _ ↦ hfail w3 pa h3⟩
      rw [hquota3, hone2]

/-- `anon_page_get` answers the page that the object has for the index. -/
theorem anonPageGet_tally (h : Tally ct fr hs w) (hroom : ∀ c, hs.count c < nproc) (o : O)
    (index : Nat) :
    Ensures (anonPageGet o index) w fun r w' ↦
      match r with
      | none => Tally ct fr hs w'
      | some pa => Tally ct fr (pa :: hs) w' ∧ w'.owns fr (.anon o index) = some pa := by
  unfold anonPageGet anonLookup
  rw [ensures_bind, ensures_bind, ensures_get]
  split
  · rw [ensures_pure]
    dsimp only
    rw [ensures_bind]
    have hcandidate : Ensures anonCandidate w fun r w' ↦ Quiet w w' ∧
        match r with
        | none => Tally ct fr hs w'
        | some pa => Tally ct fr (pa :: hs) w' ∧ w'.quota pa = 1 := by
      refine (anonCandidate_quiet w).and ?_
      unfold anonCandidate
      apply (kallocPage_tally h).bind
      rintro r w1 ⟨-, -, hr⟩
      cases r with
      | none =>
        rw [ensures_pure]
        exact hr
      | some pa =>
        obtain ⟨h1, -, hone⟩ := hr
        apply (zeroPage_tally h1 hone).bind
        rintro _ w2 ⟨hq2, hquota2, h2⟩
        apply kmalloc_tally.bind
        rintro b w3 ⟨hq3, hquota3, hmem3⟩
        have h3 := h2.quiet hq3 hquota3 hmem3
        simp only [ensures_ite, ensures_bind, ensures_pure]
        refine ⟨fun _ ↦ ⟨h3, by rw [hquota3, hquota2, hone]⟩, fun _ ↦ ?_⟩
        exact (kfreePage_tally hP h3).mono fun _ _ h4 ↦ h4.2
    apply hcandidate.mono
    rintro r w1 ⟨hq1, hr⟩
    cases r with
    | none =>
      rw [ensures_pure]
      exact hr
    | some pa =>
      obtain ⟨h1, hone⟩ := hr
      simp only [ensures_bind, ensures_pure]
      unfold anonInsert
      rw [ensures_bind, ensures_get]
      split
      · exact ensures_halt
      · rename_i x hx
        split
        · rename_i found hfound
          have howns : w1.owns fr (.anon o index) = some found := by
            rw [World.owns_anon hx, hfound]
          have hne : found ≠ pa := by
            rintro rfl
            exact h1.fresh hone _ howns
          have hroom1 : (pa :: hs).count found < nproc := by
            rw [List.count_cons_of_ne (Ne.symm hne)]
            exact hroom found
          simp only [ensures_bind, ensures_pure]
          apply (kaddquota_tally hP h1 hroom1).mono
          rintro _ w2 ⟨hq2, h2, -⟩
          apply (kfreePage_tally hP (h2.perm (List.Perm.swap pa found hs))).mono
          rintro _ w3 ⟨hq3, h3⟩
          refine ⟨h3, ?_⟩
          rw [hq3.owns, hq2.owns, howns]
        · rename_i hnone
          simp only [ensures_bind, ensures_pure]
          unfold setObj
          rw [ensures_modify]
          apply (kaddquota_tally hP (h1.setObj_anon hone hx hnone) (hroom pa)).mono
          rintro _ w2 ⟨hq2, h2, -⟩
          refine ⟨h2, ?_⟩
          rw [hq2.owns, World.owns_anon (update_self ..), Option.getD_some, anonFind_cons,
            if_pos rfl]
  · rename_i pa hfound
    apply (kaddquota_tally hP h (hroom pa)).bind
    rintro _ w1 ⟨hq1, h1, -⟩
    rw [ensures_pure, ensures_pure]
    refine ⟨h1, ?_⟩
    rw [hq1.owns]
    change ((w.obj o).bind (·.anon)).bind (anonFind · index) = some pa
    rw [← hfound]
    cases w.obj o <;> rfl

/-- A fault operation of a mapping, for one of its pages. -/
theorem vmaFault_tally (h : Tally ct fr hs w) (hroom : ∀ c, hs.count c < nproc) {p : P} {v : Vma O}
    {n : Nat} (hview : view (w.proc p).vmas n = some (v.page n)) :
    Ensures (vmaFault v n) w fun r w' ↦ Brought ct fr hs p n r w' := by
  have hplace : ∀ o, v.object = some o →
      w.place p n = some (o, v.backing n / pgsize) := by
    intro o ho
    unfold World.place
    rw [hview, Option.bind_some]
    change v.object.map _ = _
    rw [ho]
    rfl
  unfold vmaFault
  split
  · exact mmapFileFault_tally hP h p v n
  · unfold mmapAnonFault
    rw [ensures_ite]
    refine ⟨fun _ ↦ ?_, fun _ ↦ ?_⟩
    · split
      · exact ensures_halt
      · rename_i o ho
        refine ((anonPageGet_eff w o (v.backing n / pgsize)).and
          (anonPageGet_tally hP h hroom o (v.backing n / pgsize))).mono ?_
        rintro r w1 ⟨heff, hr⟩
        cases r with
        | none => exact hr
        | some pa =>
          refine ⟨hr.1, .inr ⟨_, _, hr.2, rfl, ?_⟩⟩
          have hsame : w1.place = w.place := World.place_congr fun q ↦ by rw [heff.core.proc]
          rw [hsame]
          exact hplace o ho
    · apply (kallocPage_tally h).bind
      rintro r w1 ⟨-, -, hr⟩
      cases r with
      | none =>
        rw [ensures_pure]
        exact hr
      | some pa =>
        obtain ⟨h1, -, hone⟩ := hr
        simp only [ensures_bind, ensures_pure]
        apply (zeroPage_tally h1 hone).mono
        rintro _ w2 ⟨hq2, hquota2, h2⟩
        exact ⟨h2, .inl (by rw [hquota2, hone])⟩
  · unfold mmapKbufFault
    rw [ensures_bind, ensures_get]
    split
    · rw [ensures_pure]
      exact h
    · rename_i pas hpas
      split
      · rw [ensures_pure]
        exact h
      · rename_i pa hpa
        obtain ⟨x, hx, htype⟩ := Option.bind_eq_some_iff.mp hpas
        obtain ⟨o, ho, hobj⟩ := Option.bind_eq_some_iff.mp hx
        split_ifs at htype
        simp only [ensures_bind, ensures_pure]
        apply (kaddquota_tally hP h (hroom pa)).mono
        rintro _ w1 ⟨hq1, h1, -⟩
        refine ⟨h1, .inr ⟨.kbuf o (v.backing n / pgsize), _, ?_, rfl, ?_⟩⟩
        · rw [hq1.owns]
          change ((w.obj o).bind (·.kbuf)).bind (·[v.backing n / pgsize]?) = some pa
          rw [hobj, Option.bind_some, htype, Option.bind_some, hpa]
        · rw [hq1.alike.place]
          exact hplace o ho

end

end

end Xv6K210.Vm
