import Xv6K210.Burn.Safety

/-!
# One lost reply

Runs of the transfer in which one frame from the board is lost or spoiled and everything
else arrives in time: a program gives up waiting only when no frame is in flight, and the
card accepts its writes. Which of the two programs gives up first is left open. The retry
rule of one phase meets the next phase of the other side, so the place of the loss decides.
-/

namespace Xv6K210.Burn

open Base

/-- The frame from the board that does not arrive: its place among the frames that the board
sends, and the error that the host sees instead, if it sees anything. -/
structure Fault where
  index : Nat
  seen : Option Host.RecvErr
  deriving DecidableEq, Repr

/-- The system, and the number of frames that the board has sent. -/
structure Link where
  sys : System
  replies : Nat

/-- No frame is in flight and the host does not send. -/
def Link.Quiet (s : Link) : Prop :=
  s.sys.toBoard = [] ∧ s.sys.toHost = [] ∧ s.sys.host.pc ≠ .sendBaud ∧
    s.sys.host.pc ≠ .sendData ∧ s.sys.host.pc ≠ .sendDone

instance (s : Link) : Decidable s.Quiet :=
  inferInstanceAs (Decidable (s.sys.toBoard = [] ∧ s.sys.toHost = [] ∧
    s.sys.host.pc ≠ .sendBaud ∧ s.sys.host.pc ≠ .sendData ∧ s.sys.host.pc ≠ .sendDone))

/-- The board has moved to `t` and its reply, if it sent one, meets the fault. -/
def Link.reply (fault : Fault) (s : Link) (t : System) : Link :=
  if t.toHost.length = s.sys.toHost.length then ⟨t, s.replies⟩
  else if s.replies = fault.index then
    ⟨{ t with toHost := s.sys.toHost ++ fault.seen.toList.map .error }, s.replies + 1⟩
  else ⟨t, s.replies + 1⟩

/-- One step in time. -/
def Link.next (image : Image) (baud : Nat) (fault : Fault) (s : Link) : Act → Option Link
  | .hostSend => (s.sys.next image baud .hostSend).map (⟨·, s.replies⟩)
  | .hostRecv => (s.sys.next image baud .hostRecv).map (⟨·, s.replies⟩)
  | .hostError .timeout =>
    if s.Quiet then (s.sys.next image baud (.hostError .timeout)).map (⟨·, s.replies⟩)
    else none
  | .boardRecv true ticks =>
    (s.sys.next image baud (.boardRecv true ticks)).map (s.reply fault)
  | .boardError .truncated =>
    -- only the sector loop and the wait for DONE have a limit
    if s.Quiet ∧ (s.sys.board.pc = .data ∨ s.sys.board.pc = .waitDone) then
      (s.sys.next image baud (.boardError .truncated)).map (s.reply fault)
    else none
  | _ => none

/-- The steps in time as a relation. -/
def Link.Step (image : Image) (baud : Nat) (fault : Fault) (s : Link) (a : Act) (t : Link) :
    Prop := s.next image baud fault a = some t

/-- The start: at the second BAUD request, when the rate is switched at all. -/
def Link.start (image : Image) (sectors : Nat → List UInt8) (switched : Bool) : Link :=
  if switched then
    ⟨⟨⟨.sendBaud, 0, 0⟩, ⟨.baud, 0, 0, Card.open sectors⟩, [], []⟩, 0⟩
  else ⟨System.start image sectors, 0⟩

/-- The transfer is complete: the host has sent DONE and the board has received it. -/
def Link.Completed (s : Link) : Prop :=
  (s.sys.host.pc = .waitDone ∨ s.sys.host.pc = .finished) ∧ s.sys.board.pc = .success

/-- The transfer has failed on a side. -/
def Link.Failed (s : Link) : Prop := s.sys.host.pc = .died ∨ s.sys.board.pc = .failed

/-! ## The only step -/

/-- The host waits for a frame. -/
def Host.State.Waits (h : Host.State) : Prop :=
  h.pc = .waitBaud ∨ h.pc = .waitData ∨ h.pc = .waitDone

/-- A host that waits sends nothing. -/
theorem Host.State.Waits.send {h : Host.State} (hw : h.Waits) (image : Image) (baud : Nat) :
    Host.send image baud h = none := by
  unfold Host.send
  rcases hw with hpc | hpc | hpc <;> rw [hpc]

section Forced

variable {image : Image} {baud : Nat} {fault : Fault} {P : Link → Prop} {h h' : Host.State}
  {b : Board.State} {k : Nat}

end Forced

/-! ## The answers of the board -/

section Answers

variable (total s r ticks : Nat) (c : Card) (payload : List UInt8)

end Answers

section Sectors

variable {image : Image} {baud : Nat} {fault : Fault} {P : Link → Prop} {c : Card} {s r k : Nat}

end Sectors

/-! ## The BAUD exchange -/

section Baud

variable {image : Image} {baud : Nat} {fault : Fault} {P : Link → Prop}
  {sectors : Nat → List UInt8}

end Baud

/-! ## The place of the loss decides -/

private theorem Link.reply_host (fault : Fault) (s : Link) (t : System) :
    (Link.reply fault s t).sys.host = t.host := by
  unfold Link.reply
  split_ifs <;> rfl

private theorem Link.reply_board (fault : Fault) (s : Link) (t : System) :
    (Link.reply fault s t).sys.board = t.board := by
  unfold Link.reply
  split_ifs <;> rfl

section Stable

variable {image : Image} {baud : Nat} {fault : Fault} {s t : Link} {a : Act}

/-- In a step one program moves: the host sends or receives, or the board receives. -/
theorem Link.Step.cases (h : Link.Step image baud fault s a t) :
    (t.sys.board = s.sys.board ∧
      ((∃ f, Host.send image baud s.sys.host = some (f, t.sys.host)) ∨
        ∃ m, Host.recv image s.sys.host m = some t.sys.host)) ∨
    (t.sys.host = s.sys.host ∧ ∃ m ok ticks,
      t.sys.board = (Board.recv (Board.nsectors image.bytes.length) s.sys.board m ok ticks).1) := by
  unfold Link.Step at h
  cases a with
  | hostSend =>
    obtain ⟨u, hu, rfl⟩ := Option.map_eq_some_iff.mp h
    obtain ⟨⟨f, h'⟩, hsend, rfl⟩ := Option.map_eq_some_iff.mp hu
    exact .inl ⟨rfl, .inl ⟨f, hsend⟩⟩
  | hostRecv =>
    obtain ⟨u, hu, rfl⟩ := Option.map_eq_some_iff.mp h
    simp only [System.next] at hu
    cases hc : s.sys.toHost with
    | nil =>
      rw [hc] at hu
      cases hu
    | cons m rest =>
      rw [hc] at hu
      obtain ⟨h', hrecv, rfl⟩ := Option.map_eq_some_iff.mp hu
      exact .inl ⟨rfl, .inr ⟨m, hrecv⟩⟩
  | hostError e =>
    cases e with
    | value => cases h
    | timeout =>
      by_cases hq : s.Quiet
      · simp only [Link.next, if_pos hq] at h
        obtain ⟨u, hu, rfl⟩ := Option.map_eq_some_iff.mp h
        obtain ⟨h', hrecv, rfl⟩ := Option.map_eq_some_iff.mp hu
        exact .inl ⟨rfl, .inr ⟨_, hrecv⟩⟩
      · simp only [Link.next, if_neg hq] at h
        cases h
  | boardRecv ok ticks =>
    cases ok with
    | false => cases h
    | true =>
      obtain ⟨u, hu, rfl⟩ := Option.map_eq_some_iff.mp h
      simp only [System.next] at hu
      cases hc : s.sys.toBoard with
      | nil =>
        rw [hc] at hu
        cases hu
      | cons m rest =>
        rw [hc] at hu
        cases hu
        rw [Link.reply_host, Link.reply_board]
        exact .inr ⟨rfl, m, true, ticks, rfl⟩
  | boardError e =>
    cases e with
    | truncated =>
      simp only [Link.next] at h
      split_ifs at h
      obtain ⟨u, hu, rfl⟩ := Option.map_eq_some_iff.mp h
      cases hu
      rw [Link.reply_host, Link.reply_board]
      exact .inr ⟨rfl, .error .truncated, true, 0, rfl⟩
    | io | crc | protocol => cases h
  | loseToBoard i | loseToHost i | spoilToBoard i e | spoilToHost i e => cases h

/-- A failed transfer stays failed. -/
theorem Link.Step.failed (h : Link.Step image baud fault s a t) (hs : s.Failed) : t.Failed := by
  rcases h.cases with ⟨hb, hh⟩ | ⟨hh, m, ok, ticks, hb⟩
  · rcases hs with hdied | hfailed
    · rcases hh with ⟨f, hsend⟩ | ⟨m, hrecv⟩
      · simp [Host.send, hdied] at hsend
      · simp [Host.recv, hdied] at hrecv
    · exact .inr (hb ▸ hfailed)
  · rcases hs with hdied | hfailed
    · exact .inl (hh ▸ hdied)
    · refine .inr ?_
      simp only [hb, Board.recv, hfailed]

/-- A completed transfer stays completed. -/
theorem Link.Step.completed (h : Link.Step image baud fault s a t) (hs : s.Completed) :
    t.Completed := by
  rcases h.cases with ⟨hb, hh⟩ | ⟨hh, m, ok, ticks, hb⟩
  · refine ⟨?_, hb ▸ hs.2⟩
    rcases hs.1 with hpc | hpc
    · rcases hh with ⟨f, hsend⟩ | ⟨m, hrecv⟩
      · simp [Host.send, hpc] at hsend
      · simp only [Host.recv, hpc, Option.some.injEq] at hrecv
        exact .inr (hrecv ▸ rfl)
    · rcases hh with ⟨f, hsend⟩ | ⟨m, hrecv⟩
      · simp [Host.send, hpc] at hsend
      · simp [Host.recv, hpc] at hrecv
  · refine ⟨hh ▸ hs.1, ?_⟩
    simp only [hb, Board.recv, hs.2]

end Stable

end Xv6K210.Burn
