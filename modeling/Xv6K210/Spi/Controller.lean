import Xv6K210.Base.Runs

/-!
# Interrupt transfers of the SPI controller

Source `kernel/driver/spi.c:261–405, 550–581`. A transfer is started by a process, which
fills the transmit FIFO and waits; the interrupt handler fills it again, drains the receive FIFO and
wakes the process. Every turn of a loop is a step, as is every frame that the hardware shifts, and
the steps are taken in any order. The contents of the frames are left out.
-/

namespace Xv6K210.Spi

open Base

/-- `SPI_FIFO_DEPTH`. -/
def SPI_FIFO_DEPTH : Nat := 32

/-- `EINVAL`. -/
def EINVAL : Int := 22

/-- `EOVERFLOW`. -/
def EOVERFLOW : Int := 75

/-- `ETIMEDOUT`. -/
def ETIMEDOUT : Int := 110

/-- `spi_transfer_width_t`. -/
inductive SpiTransferWidth where
  | char
  | short
  | int
  deriving DecidableEq, Repr

/-- The bytes of a frame. -/
def SpiTransferWidth.bytes : SpiTransferWidth → Nat
  | char => 1
  | short => 2
  | int => 4

/-- The bits of the interrupt status and of the mask that the driver uses. -/
structure Isr where
  txe : Bool
  txo : Bool
  rxo : Bool
  rxf : Bool
  deriving DecidableEq, Repr

/-- `imr = 0`. -/
def Isr.none : Isr := ⟨false, false, false, false⟩

/-- `SPI_IMR_TXE | SPI_IMR_RXF | SPI_IMR_RXO | SPI_IMR_TXO`. -/
def Isr.all : Isr := ⟨true, true, true, true⟩

/-- Where the process is. -/
inductive Thread where
  | idle
  /-- in the first `spi_dw_tx_fill`, with `isr_lock` held -/
  | prefill
  /-- in `spi_wait_xfer` -/
  | waiting
  deriving DecidableEq, Repr

/-- Where the handler is. -/
inductive Handler where
  | out
  /-- the status is read, `isr_lock` not yet held -/
  | entered (isr : Isr)
  /-- in `spi_dw_tx_fill` -/
  | filling (isr : Isr)
  /-- in `spi_dw_rx_drain` -/
  | draining
  deriving DecidableEq, Repr

/-- The handler holds `isr_lock`. -/
def Handler.locked : Handler → Bool
  | filling _ => true
  | draining => true
  | _ => false

/-- What the handler reports of a transfer. -/
inductive Event where
  | rxo
  | txo
  | complete
  deriving DecidableEq, Repr

/-- A transfer that returned: whether it was refused for its length, what was reported and how many
frames overflowed since it began, whether it was late, and the value. -/
structure Return where
  refused : Bool
  events : List Event
  lost : Nat
  late : Bool
  value : Int
  deriving DecidableEq, Repr

/-- The controller, the variables of the driver, and what happened so far. -/
structure World where
  width : SpiTransferWidth
  txflr : Nat
  rxflr : Nat
  /-- an overflow of the receive FIFO is latched -/
  rxo : Bool
  /-- an overflow of the transmit FIFO is latched -/
  txo : Bool
  imr : Isr
  txCount : Nat
  rxCount : Nat
  xferDone : Bool
  xferErr : Int
  thread : Thread
  handler : Handler
  /-- the frames written and read since the transfer began, and those that overflowed -/
  written : Nat
  read : Nat
  lost : Nat
  /-- what the handler reported since the transfer began -/
  events : List Event
  /-- the return of the transfer, once it has returned -/
  last : Option Return
  deriving DecidableEq

/-- A step. -/
inductive Act where
  /-- `ssienr` off and on in `__spi_transfer`, which empties the FIFOs -/
  | reset
  /-- `spi_dw_int_transfer` up to the first fill -/
  | start (len : Nat)
  /-- a turn of `spi_dw_tx_fill` -/
  | push
  /-- the end of `spi_dw_tx_fill` -/
  | fillDone
  /-- the handler reads the interrupt status -/
  | enter
  /-- the handler has `isr_lock` -/
  | lock
  /-- a turn of `spi_dw_rx_drain` -/
  | pop
  /-- the end of `spi_dw_rx_drain` -/
  | drainDone
  /-- a turn of `spi_wait_xfer`, behind the timeout or not -/
  | check (late : Bool)
  /-- the hardware sends a frame and receives one -/
  | shift
  deriving DecidableEq, Repr

namespace World

/-- The bits of `isr`, masked. -/
def isr (w : World) : Isr where
  txe := w.txflr = 0 && w.imr.txe
  txo := w.txo && w.imr.txo
  rxo := w.rxo && w.imr.rxo
  rxf := 0 < w.rxflr && w.imr.rxf

/-- `xfer_err` and `xfer_done` are set, and all interrupts are masked. -/
def fail (w : World) (err : Int) (e : Event) : World :=
  { w with
    xferErr := err, xferDone := true, imr := .none, handler := .out, events := w.events ++ [e] }

/-- The handler between the two fill and drain branches, or at its end. -/
def drainOr (w : World) (isr : Isr) : World :=
  { w with handler := if isr.rxf then .draining else .out }

/-- The condition of the loop of `spi_dw_tx_fill`. -/
def fills (w : World) : Bool := w.txCount ≠ 0 && 0 < SPI_FIFO_DEPTH - w.txflr

/-- The condition of the loop of `spi_dw_rx_drain`. -/
def drains (w : World) : Bool := w.rxflr ≠ 0 && w.rxCount ≠ 0

/-- The body of `spi_dw_tx_fill`. -/
def pushFrame (w : World) : World :=
  { w with
    txflr := w.txflr + 1
    txCount := w.txCount - w.width.bytes
    written := w.written + 1 }

/-- A transfer returns. -/
def finish (w : World) (late : Bool) (value : Int) : World :=
  { w with
    xferDone := false
    imr := .none
    thread := .idle
    last := some { refused := false, events := w.events, lost := w.lost, late, value } }

/-- A transfer of a length that is no multiple of the width returns at once. -/
def refuse (w : World) : World :=
  { w with
    last := some { refused := true, events := [], lost := 0, late := false, value := -EINVAL } }

/-- A transfer begins. -/
def begin (w : World) (len : Nat) : World :=
  { w with
    txCount := len, rxCount := len
    rxo := false, txo := false
    thread := .prefill
    written := 0, read := 0, lost := 0, events := [], last := none }

/-- The state after a step, where the step can happen. -/
def after (w : World) : Act → Option World
  | .reset => if w.thread = .idle then some { w with txflr := 0, rxflr := 0 } else none
  | .start len =>
    if w.thread ≠ .idle then none
    else if len % w.width.bytes ≠ 0 then some w.refuse
    else if w.handler.locked then none
    else some (w.begin len)
  | .push =>
    match w.thread, w.handler with
    | .prefill, _ => if w.fills then some w.pushFrame else none
    | _, .filling _ => if w.fills then some w.pushFrame else none
    | _, _ => none
  | .fillDone =>
    match w.thread, w.handler with
    | .prefill, _ => if w.fills then none else some { w with thread := .waiting, imr := .all }
    | _, .filling isr =>
      if w.fills then none
      else some ({ w with
        imr := if w.txCount = 0 then { w.imr with txe := false } else w.imr }.drainOr isr)
    | _, _ => none
  | .enter =>
    if w.handler = .out ∧ w.isr ≠ .none then some { w with handler := .entered w.isr } else none
  | .lock =>
    match w.thread, w.handler with
    | .prefill, _ => none
    | _, .entered isr =>
      some (if isr.rxo then { w with rxo := false }.fail (-EOVERFLOW) .rxo
        else if isr.txo then { w with txo := false }.fail (-EINVAL) .txo
        else if isr.txe then { w with handler := .filling isr }
        else w.drainOr isr)
    | _, _ => none
  | .pop =>
    if w.handler = .draining ∧ w.drains then
      some { w with
        rxflr := w.rxflr - 1, rxCount := w.rxCount - w.width.bytes, read := w.read + 1 }
    else none
  | .drainDone =>
    if w.handler = .draining ∧ w.drains = false then
      some (if w.rxCount = 0 then
          { w with
            xferDone := true, imr := .none, handler := .out, events := w.events ++ [.complete] }
        else { w with handler := .out })
    else none
  | .check late =>
    if w.thread = .waiting ∧ w.handler.locked = false then
      some (if w.xferDone then w.finish late w.xferErr
        else if late then w.finish late (-ETIMEDOUT)
        else w)
    else none
  | .shift =>
    if w.txflr = 0 then none
    else if w.rxflr < SPI_FIFO_DEPTH then
      some { w with txflr := w.txflr - 1, rxflr := w.rxflr + 1 }
    else some { w with txflr := w.txflr - 1, rxo := true, lost := w.lost + 1 }

/-- One step. -/
def Step (w : World) (a : Act) (w' : World) : Prop := w.after a = some w'

/-- Before the first transfer, with frames of some width. -/
def boot (width : SpiTransferWidth) : World where
  width := width
  txflr := 0
  rxflr := 0
  rxo := false
  txo := false
  imr := .none
  txCount := 0
  rxCount := 0
  xferDone := false
  xferErr := 0
  thread := .idle
  handler := .out
  written := 0
  read := 0
  lost := 0
  events := []
  last := none

/-- The steps, with the conditions under which they happen. -/
inductive Did (w : World) : Act → World → Prop where
  | reset (hidle : w.thread = .idle) : Did w .reset { w with txflr := 0, rxflr := 0 }
  | refuse (len : Nat) (hidle : w.thread = .idle) (hlen : len % w.width.bytes ≠ 0) :
      Did w (.start len) w.refuse
  | start (len : Nat) (hidle : w.thread = .idle) (hlen : len % w.width.bytes = 0) :
      Did w (.start len) (w.begin len)
  | push (hfills : w.fills = true) : Did w .push w.pushFrame
  | prefilled (hthread : w.thread = .prefill) :
      Did w .fillDone { w with thread := .waiting, imr := .all }
  | filled (isr : Isr) (hthread : w.thread ≠ .prefill) (hhandler : w.handler = .filling isr) :
      Did w .fillDone ({ w with
        imr := if w.txCount = 0 then { w.imr with txe := false } else w.imr }.drainOr isr)
  | enter (hisr : w.isr ≠ .none) : Did w .enter { w with handler := .entered w.isr }
  | rxoLock (isr : Isr) (hhandler : w.handler = .entered isr) (hrxo : isr.rxo = true) :
      Did w .lock ({ w with rxo := false }.fail (-EOVERFLOW) .rxo)
  | txoLock (isr : Isr) (hhandler : w.handler = .entered isr) (htxo : isr.txo = true) :
      Did w .lock ({ w with txo := false }.fail (-EINVAL) .txo)
  | fillLock (isr : Isr) : Did w .lock { w with handler := .filling isr }
  | drainLock (isr : Isr) : Did w .lock (w.drainOr isr)
  | pop (hdrains : w.drains = true) :
      Did w .pop { w with
        rxflr := w.rxflr - 1, rxCount := w.rxCount - w.width.bytes, read := w.read + 1 }
  | complete (hcount : w.rxCount = 0) :
      Did w .drainDone { w with
        xferDone := true, imr := .none, handler := .out, events := w.events ++ [.complete] }
  | drained (hcount : w.rxCount ≠ 0) : Did w .drainDone { w with handler := .out }
  | done (late : Bool) (hthread : w.thread = .waiting) (hdone : w.xferDone = true) :
      Did w (.check late) (w.finish late w.xferErr)
  | late (hthread : w.thread = .waiting) (hdone : w.xferDone = false) :
      Did w (.check true) (w.finish true (-ETIMEDOUT))
  | sleep (hthread : w.thread = .waiting) : Did w (.check false) w
  | shift (htx : w.txflr ≠ 0) (hrx : w.rxflr < SPI_FIFO_DEPTH) :
      Did w .shift { w with txflr := w.txflr - 1, rxflr := w.rxflr + 1 }
  | overflow (htx : w.txflr ≠ 0) (hrx : SPI_FIFO_DEPTH ≤ w.rxflr) :
      Did w .shift { w with txflr := w.txflr - 1, rxo := true, lost := w.lost + 1 }

/-- What each step does. -/
theorem did_of_step {w w' : World} {a : Act} (h : Step w a w') : Did w a w' := by
  unfold Step at h
  cases a with
  | reset =>
    simp only [after] at h
    split at h
    next hidle =>
      cases h
      exact .reset hidle
    next => cases h
  | start len =>
    simp only [after] at h
    split at h
    next => cases h
    next hidle =>
      split at h
      next hlen =>
        cases h
        exact .refuse len (Decidable.not_not.mp hidle) hlen
      next hlen =>
        split at h
        next => cases h
        next =>
          cases h
          exact .start len (Decidable.not_not.mp hidle) (Decidable.not_not.mp hlen)
  | push =>
    simp only [after] at h
    split at h
    next =>
      split at h
      next hfills =>
        cases h
        exact .push hfills
      next => cases h
    next =>
      split at h
      next hfills =>
        cases h
        exact .push hfills
      next => cases h
    next => cases h
  | fillDone =>
    simp only [after] at h
    split at h
    next _ hthread =>
      split at h
      next => cases h
      next =>
        cases h
        exact .prefilled hthread
    next isr hhandler hthread =>
      split at h
      next => cases h
      next =>
        cases h
        exact .filled isr hthread hhandler
    next => cases h
  | enter =>
    simp only [after] at h
    split at h
    next henter =>
      cases h
      exact .enter henter.2
    next => cases h
  | lock =>
    simp only [after] at h
    split at h
    next => cases h
    next isr hhandler _ =>
      split at h
      next hrxo =>
        cases h
        exact .rxoLock isr hhandler hrxo
      next =>
        split at h
        next htxo =>
          cases h
          exact .txoLock isr hhandler htxo
        next =>
          split at h
          next =>
            cases h
            exact .fillLock isr
          next =>
            cases h
            exact .drainLock isr
    next => cases h
  | pop =>
    simp only [after] at h
    split at h
    next hpop =>
      cases h
      exact .pop hpop.2
    next => cases h
  | drainDone =>
    simp only [after] at h
    split at h
    next =>
      split at h
      next hcount =>
        cases h
        exact .complete hcount
      next hcount =>
        cases h
        exact .drained hcount
    next => cases h
  | check late =>
    simp only [after] at h
    split at h
    next hcheck =>
      split at h
      next hdone =>
        cases h
        exact .done late hcheck.1 hdone
      next hdone =>
        split at h
        next hlate =>
          cases h
          subst hlate
          exact .late hcheck.1 (Bool.eq_false_iff.mpr hdone)
        next hlate =>
          cases h
          obtain rfl := Bool.eq_false_iff.mpr hlate
          exact .sleep hcheck.1
    next => cases h
  | shift =>
    simp only [after] at h
    split at h
    next => cases h
    next htx =>
      split at h
      next hrx =>
        cases h
        exact .shift htx hrx
      next hrx =>
        cases h
        exact .overflow htx (Nat.le_of_not_lt hrx)

end World

end Xv6K210.Spi
