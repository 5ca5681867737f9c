import Xv6K210.Base.Runs
import Xv6K210.Burn.Frame

/-!
# The transfer phases of the burn protocol

Phases 4 to 6 of `src/user/app/burn.c` and the loops of `src/tools/burn.py` against them:
the second BAUD exchange, the sectors and DONE. Host and board are two programs that take
turns over two channels. A channel keeps the order of its frames, may lose a frame and may
turn it into one that the receiver reports as an error; a receiver may also give up waiting.
Counters that are only displayed are left out.
-/

namespace Xv6K210.Burn

open Base

/-- `MAX_RETRY` of both programs. -/
def maxRetry : Nat := 5

/-- A frame as `recv_msg` returns it. -/
structure Frame where
  seq : Nat
  type : Pkt
  payload : List UInt8
  deriving DecidableEq, Repr

/-- The image to burn. Its size is packed into 32 bits of the INFO frame. -/
structure Image where
  bytes : List UInt8
  fits : bytes.length < 2 ^ 32

/-- The sectors that the host counts, `nsectors`. -/
def Image.nsectors (image : Image) : Nat := (image.bytes.length + 511) / 512

/-- The `chunk` of a sector: the last one is filled up with zeros. -/
def Image.chunk (image : Image) (sec : Nat) : List UInt8 :=
  let chunk := (image.bytes.drop (sec * 512)).take 512
  if chunk.length < 512 then chunk ++ List.replicate (512 - chunk.length) 0 else chunk

/-! ## The card -/

/-- The card behind `/dev/sdcard` with the position of the open file, and the writes that
were made in their order. -/
structure Card where
  sectors : Nat → List UInt8
  sector : Nat
  written : List (Nat × List UInt8)

/-- A card that is opened. -/
def Card.open (sectors : Nat → List UInt8) : Card := ⟨sectors, 0, []⟩

/-- `sdcarddev_write`. The flag says whether the page and the bytes of the user are there;
without them nothing is written. -/
def sdcarddevWrite (c : Card) (buf : List UInt8) (ok : Bool) : Option Card :=
  if buf.length ≠ 512 then none
  else if ok then
    some ⟨Function.update c.sectors c.sector buf, c.sector + 1,
      c.written ++ [(c.sector, buf)]⟩
  else none

/-! ## The board -/

namespace Board

/-- Where the board is: waiting for the second BAUD, in the sector loop, waiting for DONE,
or at its end. -/
inductive Pc where
  | baud | data | waitDone | success | failed
  deriving DecidableEq, Repr

/-- The variables of the transfer: `sec`, `retries` and the card. -/
structure State where
  pc : Pc
  sec : Nat
  retries : Nat
  card : Card

/-- The sectors that the board counts, in 32-bit arithmetic. -/
def nsectors (totalSize : Nat) : Nat := (totalSize + 511) % 2 ^ 32 / 512

/-- `ERR_CRC` to `ERR_IO`, the answer to a reception that failed. -/
def RecvErr.code : RecvErr → UInt8
  | crc => 0x01
  | truncated => 0x03
  | protocol => 0x04
  | io => 0x05

/-- `send_ack` with its reason, `ACK_OK` to `ACK_BAUD`. -/
def sendAck (seq : Nat) (reason : UInt8) (ticks : Nat) : Frame :=
  ⟨seq, .ack, reason :: put32le ticks⟩

/-- `send_nak`. -/
def sendNak (seq : Nat) (err : UInt8) : Frame := ⟨seq, .nak, [err]⟩

/-- The head of the sector loop. -/
def State.enter (s : State) (total sec : Nat) : State :=
  { s with pc := if sec < total then .data else .waitDone, sec := sec, retries := 0 }

/-- `retries++` and the test of the inner loop. -/
def State.retry (s : State) : State :=
  { s with
    pc := if s.retries + 1 ≤ maxRetry then .data else .failed
    retries := s.retries + 1 }

/-- What the board does when `recv_msg` returns: its next state and the frame it sends. The
flag is the outcome of a card write, the number is what an acknowledgement reports. -/
def recv (total : Nat) (s : State) (m : Except RecvErr Frame) (ok : Bool) (ticks : Nat) :
    State × Option Frame :=
  match s.pc with
  | .baud =>
    match m with
    | .ok f =>
      if f.type = .baud then (s.enter total 0, some (sendAck f.seq 0x04 ticks))
      else ({ s with pc := .failed }, none)
    | .error _ => ({ s with pc := .failed }, none)
  | .data =>
    match m with
    | .error e => (s.retry, some (sendNak s.sec e.code))
    | .ok f =>
      if f.type = .data ∧ f.payload.length = 512 ∧ f.seq < s.sec then
        -- Lost ACK: acknowledge the duplicate without writing it twice.
        (s, some (sendAck f.seq 0x01 s.sec))
      else if f.type ≠ .data ∨ f.seq ≠ s.sec ∨ f.payload.length ≠ 512 then
        (s.retry, some (sendNak f.seq 0x04))
      else
        match sdcarddevWrite s.card f.payload ok with
        | none => (s.retry, some (sendNak s.sec 0x02))
        | some card =>
          ({ s with card := card }.enter total (s.sec + 1), some (sendAck s.sec 0x00 ticks))
  | .waitDone =>
    match m with
    | .ok f =>
      if f.type = .done then ({ s with pc := .success }, some (sendAck f.seq 0x03 0))
      else ({ s with pc := .failed }, none)
    | .error _ => ({ s with pc := .failed }, none)
  | .success | .failed => (s, none)

end Board

/-! ## The host -/

namespace Host

/-- Where the host is: before or after it sends BAUD, DATA or DONE, or at its end. -/
inductive Pc where
  | sendBaud | waitBaud | sendData | waitData | sendDone | waitDone | finished | died
  deriving DecidableEq, Repr

/-- The variables of the transfer: `sec`, and `attempt` or `sync_try`. -/
structure State where
  pc : Pc
  sec : Nat
  attempt : Nat
  deriving DecidableEq, Repr

/-- The head of the sector loop. -/
def enter (image : Image) (sec : Nat) : State :=
  ⟨if sec < image.nsectors then .sendData else .sendDone, sec, 0⟩

/-- The next attempt for a sector, or the end. -/
def State.again (s : State) : State :=
  if s.attempt < maxRetry then ⟨.sendData, s.sec, s.attempt + 1⟩ else { s with pc := .died }

/-- The frame that the host sends at its place, with the baud rate of the transfer. -/
def send (image : Image) (baud : Nat) (s : State) : Option (Frame × State) :=
  match s.pc with
  | .sendBaud => some (⟨0, .baud, leBytes 4 baud⟩, { s with pc := .waitBaud })
  | .sendData => some (⟨s.sec, .data, image.chunk s.sec⟩, { s with pc := .waitData })
  | .sendDone => some (⟨image.nsectors, .done, []⟩, { s with pc := .waitDone })
  | _ => none

/-- What the host does when `recv_msg` returns or raises, where it waits. -/
def recv (image : Image) (s : State) (m : Except RecvErr Frame) : Option State :=
  match s.pc with
  | .waitBaud =>
    match m with
    | .error _ =>
      -- three attempts, `range(3)`
      if s.attempt + 1 < 3 then some ⟨.sendBaud, s.sec, s.attempt + 1⟩
      else some { s with pc := .died }
    | .ok f => if f.type = .ack then some (enter image 0) else some { s with pc := .died }
  | .waitData =>
    match m with
    | .error _ => some s.again
    | .ok f =>
      if f.seq ≠ s.sec then some s.again
      else if f.type = .ack then some (enter image (s.sec + 1))
      else some s.again
  | .waitDone => some { s with pc := .finished }
  | _ => none

end Host

/-! ## The system -/

/-- Both programs and the two channels between them. -/
structure System where
  host : Host.State
  board : Board.State
  toBoard : List (Except Board.RecvErr Frame)
  toHost : List (Except Host.RecvErr Frame)

/-- What happens next: a program sends, receives or fails to receive, or a channel loses or
spoils the frame at a place. -/
inductive Act where
  | hostSend
  | hostRecv
  | hostError (e : Host.RecvErr)
  | boardRecv (ok : Bool) (ticks : Nat)
  | boardError (e : Board.RecvErr)
  | loseToBoard (i : Nat)
  | loseToHost (i : Nat)
  | spoilToBoard (i : Nat) (e : Board.RecvErr)
  | spoilToHost (i : Nat) (e : Host.RecvErr)

/-- The board takes a message and its reply goes out. -/
def System.boardTakes (image : Image) (s : System) (m : Except Board.RecvErr Frame) (ok : Bool)
    (ticks : Nat) : System :=
  let r := Board.recv (Board.nsectors image.bytes.length) s.board m ok ticks
  { s with board := r.1, toHost := s.toHost ++ r.2.toList.map .ok }

/-- One step of the system. -/
def System.next (image : Image) (baud : Nat) (s : System) : Act → Option System
  | .hostSend =>
    (Host.send image baud s.host).map fun r ↦
      { s with host := r.2, toBoard := s.toBoard ++ [.ok r.1] }
  | .hostRecv =>
    match s.toHost with
    | [] => none
    | m :: rest => (Host.recv image s.host m).map fun h ↦ { s with host := h, toHost := rest }
  | .hostError e => (Host.recv image s.host (.error e)).map fun h ↦ { s with host := h }
  | .boardRecv ok ticks =>
    match s.toBoard with
    | [] => none
    | m :: rest => some ({ s with toBoard := rest }.boardTakes image m ok ticks)
  | .boardError e => some (s.boardTakes image (.error e) true 0)
  | .loseToBoard i => some { s with toBoard := s.toBoard.eraseIdx i }
  | .loseToHost i => some { s with toHost := s.toHost.eraseIdx i }
  | .spoilToBoard i e => some { s with toBoard := s.toBoard.set i (.error e) }
  | .spoilToHost i e => some { s with toHost := s.toHost.set i (.error e) }

/-- The steps as a relation. -/
def System.Step (image : Image) (baud : Nat) (s : System) (a : Act) (t : System) : Prop :=
  s.next image baud a = some t

/-- The start of the sector loops, with nothing on the channels. -/
def System.start (image : Image) (sectors : Nat → List UInt8) : System where
  host := Host.enter image 0
  board := Board.State.enter ⟨.data, 0, 0, Card.open sectors⟩
    (Board.nsectors image.bytes.length) 0
  toBoard := []
  toHost := []

end Xv6K210.Burn
