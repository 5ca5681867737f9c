import Xv6K210.Files.Entries

/-!
# Opening and closing devices

Drivers are called to close what they opened, once, as long as no opening fails in a
way that leaves `fileclose` with a driver to call.
-/

namespace Xv6K210.Files

open Xv6K210.Base Xv6K210.Fs Xv6K210.Ecache Prog
open Xv6K210.Vm (nofile oTrunc)

variable {P F O : Type} [DecidableEq P] [DecidableEq F] [DecidableEq O]

/-- The file is open on the device that opening `n` opened. -/
def World.holdsOpening {S : Type} (w : World P F O S) (n : Nat) : Prop :=
  ∃ f, 0 < (w.file f).ref ∧ (w.file f).type = .device ∧ (w.file f).opening = n

/-- A call that returns, and an opening of which does no harm. -/
def CleanStep {S : Type} [DecidableEq S] (devices : Nat → Option FileOps) (ftable : List F)
    (w : World P F O S) (e : Event P O) (w' : World P F O S) : Prop :=
  Step devices ftable w e w' ∧ Harmless devices ftable (w.answers e) e.call

/-- In every run whose openings do no harm, a driver is only called for an opening that succeeded
and that it has not closed; and it has closed an opening when no file is open on it any more. -/
theorem devices_paired [Fintype P] [Fintype F] [Fintype O] {devices : Nat → Option FileOps}
    {ftable : List F} {n rootClus : Nat} {es : List (Event P O)} {w : World P F O (Fin n)}
    (h : Runs (CleanStep devices ftable) (World.boot n rootClus) es w) :
    Paired w.log ∧
      ∀ m ops data, .opened m ops (some data) ∈ w.log → ops.hasClose = true →
        ((∃ data', .closed m data' ∈ w.log) ↔ ¬ w.holdsOpening m) := by
  have hbooks : Books True w := by
    apply Runs.invariant (fun w ↦ Books True w) ?_ h (books_boot n rootClus)
    exact fun w1 e w2 hb hstep ↦ hb.step hstep.1 fun _ ↦ hstep.2
  have hopen := hbooks.openings
  refine ⟨hopen.paired trivial, fun m ops data hmem hclose ↦ ⟨?_, fun hnot ↦ ?_⟩⟩
  · rintro ⟨data', hclosed⟩ ⟨f, -, hdev, rfl⟩
    obtain ⟨-, ops', -, -, hlive⟩ := hopen.held f hdev
    exact hlive data' hclosed
  · rcases hopen.unheld m ops data hmem hclose with hclosed | ⟨f, hdev, hm⟩
    · exact hclosed
    · refine absurd ⟨f, ?_, hdev, hm⟩ hnot
      by_contra hzero
      have hnone := hbooks.free f (by omega)
      rw [hdev] at hnone
      cases hnone

instance (log : List DevCall) (n : Nat) (data : Option Nat) : Decidable (Live log n data) :=
  decidable_of_iff ((log.any fun c ↦ match c with
      | .opened m _ (some data') => m = n ∧ data' = data
      | _ => false) ∧ log.all fun c ↦ match c with
      | .closed m _ => m ≠ n
      | _ => true) <| by
    unfold Live
    rw [List.any_eq_true, List.all_eq_true]
    constructor
    · rintro ⟨⟨c, hc, hopen⟩, hall⟩
      refine ⟨?_, fun data' hmem ↦ ?_⟩
      · cases c with
        | opened m ops r =>
          cases r with
          | none => cases hopen
          | some data' =>
            obtain ⟨rfl, rfl⟩ := of_decide_eq_true hopen
            exact ⟨ops, hc⟩
        | used => cases hopen
        | closed => cases hopen
      · exact absurd rfl (of_decide_eq_true (hall _ hmem))
    · rintro ⟨⟨ops, hmem⟩, hnot⟩
      refine ⟨⟨_, hmem, by simp⟩, fun c hc ↦ ?_⟩
      cases c with
      | opened => rfl
      | used => rfl
      | closed m data' =>
        apply decide_eq_true
        rintro rfl
        exact hnot data' hc

/-- The pairing of the calls is computed. -/
instance decidablePaired : (log : List DevCall) → Decidable (Paired log)
  | [] => inferInstanceAs (Decidable True)
  | .opened _ _ _ :: log => decidablePaired log
  | .used n data :: log =>
    letI := decidablePaired log
    inferInstanceAs (Decidable (Live log n data ∧ Paired log))
  | .closed n data :: log =>
    letI := decidablePaired log
    inferInstanceAs (Decidable (Live log n data ∧ Paired log))

/-- `sdcard_ops`, of major 5. -/
def sdcardOnly : Nat → Option FileOps
  | 5 => some ⟨true, true, true, true, false, true⟩
  | _ => none

/-- The card is made a node, opened and closed. -/
def openCard : List (Event Bool Unit) :=
  [⟨.start true, [], [], []⟩,
    ⟨.mknod true [0x2f, 0x61] 5 0 64, [none], [], []⟩,
    ⟨.open true [0x2f, 0x61] 2 0 .context, [], [], []⟩,
    ⟨.close true ⟨0, by decide⟩, [], [], []⟩]

/-- The card is closed once. -/
theorem devices_paired_small : ∃ es, ∃ w : World Bool (Fin 2) Unit (Fin 2),
    Runs (CleanStep sdcardOnly [0, 1]) (World.boot 2 2) es w ∧ Paired w.log ∧
      .closed 1 (some 1) ∈ w.log := by
  obtain ⟨w, hrun, hcheck⟩ := exists_run_of sdcardOnly [0, 1]
    (fun w e ↦ Harmless sdcardOnly [0, 1] (w.answers e) e.call)
    (World.boot 2 2 : World Bool (Fin 2) Unit (Fin 2)) openCard
    (fun w ↦ .closed 1 (some 1) ∈ w.log) (by decide +kernel)
  have hclean : Runs (CleanStep sdcardOnly [0, 1]) (World.boot 2 2) openCard w :=
    hrun.mono fun _ _ _ hstep ↦ ⟨hstep.1, of_decide_eq_true hstep.2⟩
  exact ⟨openCard, w, hclean, (devices_paired hclean).1, of_decide_eq_true hcheck⟩

/-- When the node is opened again with `O_TRUNC`, its numbers are gone, no driver is found, and
what the first opening left in the file is closed once more. -/
theorem closed_twice : ∃ es, ∃ w : World Bool (Fin 2) Unit (Fin 2),
    Runs (Step sdcardOnly [0, 1]) (World.boot 2 2) es w ∧
      w.log.count (.closed 1 (some 1)) = 2 ∧ ¬ Paired w.log := by
  obtain ⟨w, hrun, hcheck⟩ := exists_run sdcardOnly [0, 1]
    (World.boot 2 2 : World Bool (Fin 2) Unit (Fin 2))
    (openCard ++ [⟨.open true [0x2f, 0x61] (2 ||| oTrunc) 0 .context, [], [], []⟩])
    (fun w ↦ w.log.count (.closed 1 (some 1)) = 2 ∧ ¬ Paired w.log) (by decide +kernel)
  obtain ⟨hcount, hpaired⟩ := of_decide_eq_true hcheck
  exact ⟨_, w, hrun, hcount, hpaired⟩

end Xv6K210.Files
