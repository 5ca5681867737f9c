import Mathlib.Algebra.GroupWithZero.Nat
import Xv6K210.Base.ByteMem
import Xv6K210.Vm.Exec

/-!
# The arguments on the stack

Source `kernel/proc/exec.c:105–141`. The strings go to the stack from the top down,
each at a multiple of 16, and below them goes the array of their addresses. The room that they need
tells whether they fit, and what is written at one address is not written over at another.
-/

namespace Xv6K210.Vm

open Xv6K210.Base Prog Function

variable {P O F : Type}

/-! ### Room -/

/-- A number of bytes, rounded up to the alignment of the stack. -/
def round16 (n : Nat) : Nat := (n + 15) / 16 * 16

/-- The room for a string with its terminating zero. -/
def stringRoom (s : List UInt8) : Nat := round16 (s.length + 1)

/-- The room for all strings. -/
def stringsRoom (argv : List (List UInt8)) : Nat := (argv.map stringRoom).sum

/-- The room for the strings and the array of their addresses. -/
def argRoom (argv : List (List UInt8)) : Nat :=
  stringsRoom argv + round16 ((argv.length + 1) * 8)

private theorem le_round16 (n : Nat) : n ≤ round16 n := by
  unfold round16
  omega

private theorem round16_mod (n : Nat) : round16 n % 16 = 0 := Nat.mul_mod_left _ _

/-- An aligned stack pointer moves down by the room. -/
theorem pushBytes_eq {sp : Nat} (h : sp % 16 = 0) (len : Nat) :
    pushBytes sp len = sp - round16 len := by
  unfold pushBytes round16
  omega

private theorem stringsRoom_cons (s : List UInt8) (argv : List (List UInt8)) :
    stringsRoom (s :: argv) = stringRoom s + stringsRoom argv := rfl

/-! ### The strings -/

/-- The strings below `sp`, with their addresses. -/
def stringPieces : List (List UInt8) → Nat → List (Nat × List UInt8)
  | [], _ => []
  | s :: argv, sp => (sp - stringRoom s, s ++ [0]) :: stringPieces argv (sp - stringRoom s)

private theorem sub_stringRoom_mod {sp : Nat} (h : sp % 16 = 0) (s : List UInt8) :
    (sp - stringRoom s) % 16 = 0 := by
  have := round16_mod (s.length + 1)
  unfold stringRoom
  omega

/-- The loop of `exec` over the strings goes through just when they fit. -/
theorem pushArgs_eq (argv : List (List UInt8)) {sp : Nat} (ustack : List Nat)
    (out : List (Nat × List UInt8)) (hsp : sp % 16 = 0) (hbase : stackbase ≤ sp)
    (hmax : ustack.length + argv.length ≤ maxarg) :
    pushArgs argv sp ustack out =
      if stackbase + stringsRoom argv ≤ sp then
        some (sp - stringsRoom argv, ustack ++ (stringPieces argv sp).map Prod.fst,
          out ++ stringPieces argv sp)
      else none := by
  induction argv generalizing sp ustack out with
  | nil => simp [pushArgs, stringsRoom, stringPieces, hbase]
  | cons s argv ih =>
    rw [List.length_cons] at hmax
    have hroom : pushBytes sp (s.length + 1) = sp - stringRoom s := pushBytes_eq hsp _
    rw [pushArgs, hroom, stringsRoom_cons, if_neg (by omega)]
    by_cases hlow : sp - stringRoom s < stackbase
    · rw [if_pos hlow, if_neg (by omega)]
    · rw [if_neg hlow, ih _ _ (sub_stringRoom_mod hsp s) (Nat.le_of_not_lt hlow)
        (by rw [List.length_append, List.length_singleton]; omega)]
      have hpos : 0 < stackbase := by decide
      by_cases hfits : stackbase + (stringRoom s + stringsRoom argv) ≤ sp
      · rw [if_pos (by omega), if_pos hfits, Nat.sub_sub]
        simp only [stringPieces, List.map_cons, List.append_assoc, List.singleton_append]
      · rw [if_neg (by omega), if_neg hfits]

private theorem map_snd_stringPieces (argv : List (List UInt8)) (sp : Nat) :
    (stringPieces argv sp).map Prod.snd = argv.map (· ++ [0]) := by
  induction argv generalizing sp with
  | nil => rfl
  | cons s argv ih => rw [stringPieces, List.map_cons, List.map_cons, ih]

private theorem length_stringPieces (argv : List (List UInt8)) (sp : Nat) :
    (stringPieces argv sp).length = argv.length := by
  rw [← List.length_map Prod.snd, map_snd_stringPieces, List.length_map]

/-- A string lies below `sp`, in the room for the strings, at a multiple of 16. -/
theorem stringPieces_mem {argv : List (List UInt8)} {sp : Nat} (hsp : sp % 16 = 0)
    (hfits : stringsRoom argv ≤ sp) {x : Nat × List UInt8} (hx : x ∈ stringPieces argv sp) :
    sp - stringsRoom argv ≤ x.1 ∧ x.1 + x.2.length ≤ sp ∧ x.1 % 16 = 0 := by
  induction argv generalizing sp with
  | nil => cases hx
  | cons s argv ih =>
    rw [stringsRoom_cons] at hfits ⊢
    have hroom : s.length + 1 ≤ stringRoom s := le_round16 _
    have hmod := sub_stringRoom_mod hsp s
    rcases List.mem_cons.mp hx with rfl | hx
    · rw [List.length_append, List.length_singleton]
      exact ⟨by omega, by omega, hmod⟩
    · obtain ⟨hlow, hhigh, hx16⟩ := ih hmod (by omega) hx
      exact ⟨by omega, by omega, hx16⟩

/-- The strings do not meet. -/
theorem stringPieces_apart {argv : List (List UInt8)} {sp : Nat} (hsp : sp % 16 = 0)
    (hfits : stringsRoom argv ≤ sp) : (stringPieces argv sp).Pairwise Apart := by
  induction argv generalizing sp with
  | nil => exact List.Pairwise.nil
  | cons s argv ih =>
    rw [stringsRoom_cons] at hfits
    have hmod := sub_stringRoom_mod hsp s
    rw [stringPieces, List.pairwise_cons]
    refine ⟨fun x hx ↦ .inr ?_, ih hmod (by omega)⟩
    exact (stringPieces_mem hmod (by omega) hx).2.1

/-! ### The array of the addresses -/

/-- The bytes of numbers of one width, read at a number. -/
theorem getElem?_flatMap_leBytes (k : Nat) (xs : List Nat) {i j x : Nat} (hx : xs[i]? = some x)
    (hj : j < k) : (xs.flatMap (leBytes k))[k * i + j]? = (leBytes k x)[j]? := by
  induction xs generalizing i with
  | nil => cases hx
  | cons y ys ih =>
    rw [List.flatMap_cons]
    cases i with
    | zero =>
      cases hx
      rw [Nat.mul_zero, Nat.zero_add]
      exact List.getElem?_append_left (by rwa [length_leBytes])
    | succ i =>
      rw [List.getElem?_append_right (by rw [length_leBytes, Nat.mul_succ]; omega),
        length_leBytes, ← ih hx]
      congr 1
      rw [Nat.mul_succ]
      omega

/-- The addresses of the strings, and the zero behind them. -/
def addressWords (argv : List (List UInt8)) : List Nat :=
  (stringPieces argv userStackTop).map Prod.fst ++ [0]

/-- The stack pointer that `exec` ends with. -/
def argSp (argv : List (List UInt8)) : Nat := userStackTop - argRoom argv

/-- What `exec` writes to the stack. -/
def argPieces (argv : List (List UInt8)) : List (Nat × List UInt8) :=
  stringPieces argv userStackTop ++ [(argSp argv, (addressWords argv).flatMap (leBytes 8))]

private theorem length_flatMap_leBytes (k : Nat) (xs : List Nat) :
    (xs.flatMap (leBytes k)).length = k * xs.length := by
  induction xs with
  | nil => rfl
  | cons x xs ih =>
    rw [List.flatMap_cons, List.length_append, ih, length_leBytes, List.length_cons, Nat.mul_succ,
      Nat.add_comm]

private theorem length_addressWords (argv : List (List UInt8)) :
    (addressWords argv).length = argv.length + 1 := by
  rw [addressWords, List.length_append, List.length_map, length_stringPieces]
  rfl

private theorem userStackTop_mod : userStackTop % 16 = 0 := by decide

private theorem stringsRoom_mod (argv : List (List UInt8)) : stringsRoom argv % 16 = 0 := by
  induction argv with
  | nil => rfl
  | cons s argv ih =>
    have := round16_mod (s.length + 1)
    rw [stringsRoom_cons]
    unfold stringRoom
    omega

private theorem argSp_mod (argv : List (List UInt8)) : argSp argv % 16 = 0 := by
  have := stringsRoom_mod argv
  have := round16_mod ((argv.length + 1) * 8)
  have := userStackTop_mod
  unfold argSp argRoom
  omega

/-- Everything that `exec` writes lies in the top page of the stack. -/
theorem argPieces_mem {argv : List (List UInt8)} (hfits : argRoom argv ≤ pgsize)
    {x : Nat × List UInt8} (hx : x ∈ argPieces argv) :
    stackbase ≤ x.1 ∧ x.1 + x.2.length ≤ userStackTop := by
  have hbase : stackbase + pgsize = userStackTop := by decide
  have harray := le_round16 ((argv.length + 1) * 8)
  unfold argRoom at hfits
  rcases List.mem_append.mp hx with hx | hx
  · obtain ⟨hlow, hhigh, -⟩ := stringPieces_mem userStackTop_mod (by omega) hx
    exact ⟨by omega, hhigh⟩
  · rw [List.mem_singleton] at hx
    subst hx
    rw [length_flatMap_leBytes, length_addressWords]
    unfold argSp argRoom
    exact ⟨by omega, by omega⟩

private theorem argPieces_apart {argv : List (List UInt8)} (hfits : argRoom argv ≤ pgsize) :
    (argPieces argv).Pairwise Apart := by
  have hbase : stackbase + pgsize = userStackTop := by decide
  have harray := le_round16 ((argv.length + 1) * 8)
  unfold argRoom at hfits
  have hstrings : stringsRoom argv ≤ userStackTop := by omega
  rw [argPieces, List.pairwise_append]
  refine ⟨stringPieces_apart userStackTop_mod hstrings, List.pairwise_singleton .., ?_⟩
  intro x hx y hy
  rw [List.mem_singleton] at hy
  subst hy
  have hlow := (stringPieces_mem userStackTop_mod hstrings hx).1
  right
  rw [length_flatMap_leBytes, length_addressWords]
  unfold argSp argRoom
  omega

/-! ### Writing them -/

/-- A piece, by its place in the top page of the stack. -/
def inStackPage (x : Nat × List UInt8) : Nat × List UInt8 := (x.1 - stackbase, x.2)

private theorem inStackPage_snd (a : Nat) (bs : List UInt8) : (inStackPage (a, bs)).2 = bs := rfl

/-- What `exec` writes goes to the page that the kernel table has for the top of the stack. -/
theorem pokeStack_spec {w : World P O F} {p : P} {e : Pte}
    (he : w.leaf (.kern p) (stackbase / pgsize) = some e) (x : Nat × List UInt8) :
    Ensures (pokeStack p x.1 x.2) w fun _ w' ↦ Quiet w w' ∧ w'.quota = w.quota ∧
      w'.mem = update w.mem e.pa
        (Base.store (w.mem e.pa) (inStackPage x).1 (inStackPage x).2) := by
  have hpage : (fun j ↦ if x.1 - stackbase ≤ j then x.2.getD (j - (x.1 - stackbase)) (w.mem e.pa j)
      else w.mem e.pa j) = Base.store (w.mem e.pa) (inStackPage x).1 (inStackPage x).2 := by
    funext j
    unfold Base.store inStackPage
    by_cases hj : x.1 - stackbase ≤ j
    · rw [if_pos hj, if_pos hj, List.getD_eq_getElem?_getD]
    · rw [if_neg hj, if_neg hj]
  unfold pokeStack
  apply (walk_spec w _ _).bind
  rintro r w0 ⟨rfl, rfl⟩
  rw [he]
  dsimp only
  rw [ensures_modify, hpage]
  exact ⟨.of_eq rfl rfl rfl rfl rfl, rfl, rfl⟩

private theorem pokeStacks_spec {w : World P O F} {p : P} {e : Pte}
    (he : w.leaf (.kern p) (stackbase / pgsize) = some e) (xs : List (Nat × List UInt8)) :
    Ensures (forEach (fun x : Nat × List UInt8 ↦ pokeStack p x.1 x.2) xs) w fun _ w' ↦
      Quiet w w' ∧ w'.quota = w.quota ∧
      w'.mem = update w.mem e.pa (storeAll (w.mem e.pa) (xs.map inStackPage)) := by
  induction xs generalizing w with
  | nil =>
    rw [forEach, ensures_pure]
    exact ⟨.refl w, rfl, (update_eq_self e.pa w.mem).symm⟩
  | cons x xs ih =>
    rw [forEach, ensures_bind]
    apply (pokeStack_spec he x).mono
    rintro _ w1 ⟨hq1, hquota1, hmem1⟩
    have he1 : w1.leaf (.kern p) (stackbase / pgsize) = some e := by rw [hq1.leaf, he]
    apply (ih he1).mono
    rintro _ w2 ⟨hq2, hquota2, hmem2⟩
    refine ⟨hq1.trans hq2, hquota2.trans hquota1, ?_⟩
    rw [hmem2, hmem1, update_self, update_idem, List.map_cons, storeAll]

/-- Whatever the arguments are, they are written to one page. -/
theorem execArgs_frame {w : World P O F} {p : P} {e : Pte}
    (he : w.leaf (.kern p) (stackbase / pgsize) = some e) (argv : List (List UInt8)) :
    Ensures (execArgs p argv) w fun _ w' ↦
      Quiet w w' ∧ w'.quota = w.quota ∧ ∀ c, c ≠ e.pa → w'.mem c = w.mem c := by
  unfold execArgs
  split
  · rw [ensures_pure]
    exact ⟨.refl w, rfl, fun _ _ ↦ rfl⟩
  · apply (pokeStacks_spec he _).bind
    rintro _ w1 ⟨hq1, hquota1, hmem1⟩
    have hframe1 : ∀ c, c ≠ e.pa → w1.mem c = w.mem c := fun c hc ↦ by
      rw [hmem1, update_of_ne hc]
    have he1 : w1.leaf (.kern p) (stackbase / pgsize) = some e := by rw [hq1.leaf, he]
    simp only [ensures_ite, ensures_pure, ensures_bind]
    refine ⟨fun _ ↦ ⟨hq1, hquota1, hframe1⟩, fun _ ↦ ?_⟩
    apply (pokeStack_spec he1 (_, _)).mono
    rintro _ w2 ⟨hq2, hquota2, hmem2⟩
    refine ⟨hq1.trans hq2, hquota2.trans hquota1, fun c hc ↦ ?_⟩
    rw [hmem2, update_of_ne hc, hframe1 c hc]

/-- The arguments are written just when they fit. -/
theorem execArgs_spec {w : World P O F} {p : P} {e : Pte}
    (he : w.leaf (.kern p) (stackbase / pgsize) = some e) {argv : List (List UInt8)}
    (hmax : argv.length ≤ maxarg) :
    Ensures (execArgs p argv) w fun r w' ↦
      if argRoom argv ≤ pgsize then r = some (argv.length, argSp argv) ∧
        w'.mem e.pa = storeAll (w.mem e.pa) ((argPieces argv).map inStackPage)
      else r = none := by
  have hbase : stackbase + pgsize = userStackTop := by decide
  have hpieces : ∀ m, storeAll m ((argPieces argv).map inStackPage) =
      storeAll (storeAll m ((stringPieces argv userStackTop).map inStackPage))
        [inStackPage (argSp argv, (addressWords argv).flatMap (leBytes 8))] := by
    intro m
    rw [argPieces, List.map_append, storeAll_append, List.map_singleton]
  unfold execArgs
  rw [pushArgs_eq argv [] [] userStackTop_mod (by decide) (by simpa using hmax)]
  by_cases hstrings : stackbase + stringsRoom argv ≤ userStackTop
  · rw [if_pos hstrings]
    simp only [List.nil_append, List.length_map, length_stringPieces]
    apply (pokeStacks_spec he _).bind
    rintro _ w1 ⟨hq1, hquota1, hmem1⟩
    have hmod : (userStackTop - stringsRoom argv) % 16 = 0 := by
      have := stringsRoom_mod argv
      have := userStackTop_mod
      omega
    have hsp : pushBytes (userStackTop - stringsRoom argv) ((argv.length + 1) * 8) =
      argSp argv := by
      rw [pushBytes_eq hmod, Nat.sub_sub]
      rfl
    have hlow : argSp argv < stackbase ↔ ¬ argRoom argv ≤ pgsize := by
      have hpos : 0 < stackbase := by decide
      unfold argSp
      omega
    rw [hsp, ensures_ite, ensures_pure]
    refine ⟨fun h ↦ ?_, fun h ↦ ?_⟩
    · rw [if_neg (hlow.mp h)]
    · have he1 : w1.leaf (.kern p) (stackbase / pgsize) = some e := by rw [hq1.leaf, he]
      simp only [if_pos (not_not.mp (mt hlow.mpr h)), ensures_bind, ensures_pure]
      apply (pokeStack_spec he1 (argSp argv, _)).mono
      rintro _ w2 ⟨-, -, hmem2⟩
      refine ⟨trivial, ?_⟩
      rw [hmem2, hmem1, update_self, update_self, hpieces]
      rfl
  · rw [if_neg hstrings, ensures_pure, if_neg (by unfold argRoom; omega)]

/-! ### Reading them -/

/-- The process loads these bytes from the address on. -/
def Holds (w : World P O F) (p : P) (a : Nat) (bs : List UInt8) : Prop :=
  ∀ j b, bs[j]? = some b → load w (.user p) (a + j) = some b

/-- The ranges of the array and of the strings: address and length. -/
def argRanges (argv : List (List UInt8)) (sp : Nat) (addrs : List Nat) : List (Nat × Nat) :=
  (sp, 8 * (argv.length + 1)) :: addrs.zip (argv.map fun s ↦ s.length + 1)

/-- The arguments lie on the stack: below the top of the stack and in one page, aligned and apart
from each other, there are the strings with their zeros, and the words of the array at `sp` are
their addresses and a zero. -/
structure ArgStack (w : World P O F) (p : P) (argv : List (List UInt8)) (sp : Nat)
    (addrs : List Nat) : Prop where
  count : addrs.length = argv.length
  aligned : sp % 16 = 0 ∧ ∀ a ∈ addrs, a % 16 = 0
  strings : ∀ (i a : Nat) s, addrs[i]? = some a → argv[i]? = some s → Holds w p a (s ++ [0])
  words : ∀ i a : Nat, (addrs ++ [0])[i]? = some a → Holds w p (sp + 8 * i) (leBytes 8 a)
  apart : (argRanges argv sp addrs).Pairwise fun x y ↦ x.1 + x.2 ≤ y.1 ∨ y.1 + y.2 ≤ x.1
  inside : ∀ x ∈ argRanges argv sp addrs, stackbase ≤ x.1 ∧ x.1 + x.2 ≤ userStackTop

/-- An address in the top page of the stack. -/
theorem stackPage_addr {a : Nat} (hlow : stackbase ≤ a) (hhigh : a < userStackTop) :
    a / pgsize = stackbase / pgsize ∧ a % pgsize = a - stackbase := by
  have hbase : stackbase = 524287 * 4096 := by decide
  have htop : userStackTop = 524288 * 4096 := by decide
  rw [hbase] at hlow ⊢
  rw [htop] at hhigh
  unfold pgsize
  omega

/-- What was written to the page is loaded. -/
theorem holds_argPieces {w : World P O F} {p : P} {e : Pte} {m : Nat → UInt8}
    {argv : List (List UInt8)} (he : w.leaf (.user p) (stackbase / pgsize) = some e)
    (hr : e.perm.r = true) (hmem : w.mem e.pa = storeAll m ((argPieces argv).map inStackPage))
    (hfits : argRoom argv ≤ pgsize) {x : Nat × List UInt8} (hx : x ∈ argPieces argv) :
    Holds w p x.1 x.2 := by
  have hapart : ((argPieces argv).map inStackPage).Pairwise Apart := by
    rw [List.pairwise_map]
    refine (List.Pairwise.and_mem.mp (argPieces_apart hfits)).imp ?_
    rintro y z ⟨hy, hz, hyz⟩
    have hy := argPieces_mem hfits hy
    have hz := argPieces_mem hfits hz
    unfold Apart inStackPage at *
    dsimp only
    omega
  have hload := load_storeAll m hapart (List.mem_map_of_mem hx)
  obtain ⟨hlow, hhigh⟩ := argPieces_mem hfits hx
  obtain ⟨a, bs⟩ := x
  dsimp only at hlow hhigh ⊢
  intro j b hb
  have hj : j < bs.length := (List.getElem?_eq_some_iff.mp hb).1
  obtain ⟨hpage, hoffset⟩ : (a + j) / pgsize = stackbase / pgsize ∧
      (a + j) % pgsize = a + j - stackbase := stackPage_addr (by omega) (by omega)
  have hbyte : storeAll m ((argPieces argv).map inStackPage) (a - stackbase + j) = b := by
    have hget := getElem?_load (storeAll m ((argPieces argv).map inStackPage))
      (inStackPage (a, bs)).1
      (inStackPage (a, bs)).2.length j
    rw [hload, inStackPage_snd, if_pos hj, hb] at hget
    exact (Option.some.inj hget).symm
  have hleaf : (w.pt (.user p)).leaf[stackbase / pgsize]? = some e := he
  have hplace : a + j - stackbase = a - stackbase + j := by omega
  unfold load
  rw [hpage, hleaf]
  dsimp only
  rw [if_pos hr, hmem, hoffset, hplace, hbyte]

private theorem zip_stringPieces (argv : List (List UInt8)) (sp : Nat) :
    ((stringPieces argv sp).map Prod.fst).zip (argv.map fun s ↦ s.length + 1) =
      (stringPieces argv sp).map fun x ↦ (x.1, x.2.length) := by
  induction argv generalizing sp with
  | nil => rfl
  | cons s argv ih =>
    rw [stringPieces, List.map_cons, List.map_cons, List.zip_cons_cons, ih, List.map_cons,
      List.length_append]
    rfl

/-- The ranges are those of the pieces. -/
theorem argRanges_perm (argv : List (List UInt8)) :
    (argRanges argv (argSp argv) ((stringPieces argv userStackTop).map Prod.fst)).Perm
      ((argPieces argv).map fun x ↦ (x.1, x.2.length)) := by
  rw [argRanges, zip_stringPieces, argPieces, List.map_append, List.map_singleton,
    length_flatMap_leBytes, length_addressWords]
  exact (List.perm_append_singleton _ _).symm

/-- The arguments can be read as they were written. -/
theorem argStack_of_pieces {w : World P O F} {p : P} {argv : List (List UInt8)}
    (hfits : argRoom argv ≤ pgsize) (h : ∀ x ∈ argPieces argv, Holds w p x.1 x.2) :
    ArgStack w p argv (argSp argv) ((stringPieces argv userStackTop).map Prod.fst) := by
  have hbase : stackbase + pgsize = userStackTop := by decide
  have hstrings : stringsRoom argv ≤ userStackTop := by
    unfold argRoom at hfits
    omega
  constructor
  · rw [List.length_map, length_stringPieces]
  · refine ⟨argSp_mod argv, fun a ha ↦ ?_⟩
    obtain ⟨x, hx, rfl⟩ := List.mem_map.mp ha
    exact (stringPieces_mem userStackTop_mod hstrings hx).2.2
  · intro i a s ha hs
    rw [List.getElem?_map, Option.map_eq_some_iff] at ha
    obtain ⟨x, hx, rfl⟩ := ha
    have hsnd : x.2 = s ++ [0] := by
      have hmap := congrArg (·[i]?) (map_snd_stringPieces argv userStackTop)
      simpa [List.getElem?_map, hx, hs] using hmap
    rw [← hsnd]
    exact h x (List.mem_append_left _ (List.mem_of_getElem? hx))
  · intro i a ha j b hb
    have hj : j < 8 := by
      have hlt := (List.getElem?_eq_some_iff.mp hb).1
      rwa [length_leBytes] at hlt
    rw [Nat.add_assoc]
    apply h (argSp argv, (addressWords argv).flatMap (leBytes 8))
      (List.mem_append_right _ List.mem_cons_self) (8 * i + j)
    rw [← hb]
    exact getElem?_flatMap_leBytes 8 _ ha hj
  · refine ((argRanges_perm argv).pairwise_iff fun hxy ↦ hxy.symm).mpr ?_
    rw [List.pairwise_map]
    exact argPieces_apart hfits
  · intro x hx
    obtain ⟨y, hy, rfl⟩ := List.mem_map.mp ((argRanges_perm argv).mem_iff.mp hx)
    exact argPieces_mem hfits hy

end Xv6K210.Vm
