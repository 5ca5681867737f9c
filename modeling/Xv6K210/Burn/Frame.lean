import Xv6K210.Base.Crc
import Xv6K210.Base.LittleEndian

/-!
# Frames of the burn protocol

The framed transport between the host tool and the board, `src/user/app/burn.c` and
`src/tools/burn.py`: magic, sequence number, type, payload length, payload and a CRC-32 of
all that. Both sides send and receive such frames, the board with a checksum by table that
is chained over the parts, the host with one call of `zlib.crc32`.
-/

namespace Xv6K210.Burn

open Base

/-- The packet types, `PKT_INFO` to `PKT_NAK`. -/
inductive Pkt where
  | info | data | done | baud | ack | nak
  deriving DecidableEq, Repr

/-- The byte of a packet type. -/
def Pkt.code : Pkt → UInt8
  | info => 0x01
  | data => 0x02
  | done => 0x03
  | baud => 0x04
  | ack => 0x81
  | nak => 0x82

/-- The four bytes that start a frame, `magic` and `MAGIC`. -/
def magic : List UInt8 := [0x55, 0xAA, 0x55, 0xAA]

/-- A receiving line: the bytes that arrive in time, and how many of them are buffered when
each read is made. The line is silent after the last byte. -/
structure Rx where
  bytes : List UInt8
  bursts : List Nat
  deriving DecidableEq, Repr

/-- A read returns what is buffered, at least one byte and at most what it asks for. -/
def Rx.read (rx : Rx) (want : Nat) : List UInt8 × Rx :=
  let got := min want (max 1 (rx.bursts.headD 1))
  (rx.bytes.take got, ⟨rx.bytes.drop got, rx.bursts.tail⟩)

/-- Read until `want` bytes are there: the loops of `read_bytes_timeout` and `readall`. A
silent line ends the loop with the error `silent`. Every read returns a byte, so the first
argument bounds the turns. -/
def readLoop {ε : Type} (silent : ε) :
    Nat → Nat → List UInt8 → EStateM ε Rx (List UInt8)
  | 0, _, buf => pure buf
  | turns + 1, want, buf =>
    if want = 0 then pure buf
    else do
      let rx ← get
      if rx.bytes = [] then throw silent
      else do
        let (chunk, rx') := rx.read want
        set rx'
        readLoop silent turns (want - chunk.length) (buf ++ chunk)

/-! ## The board -/

namespace Board

/-- One turn of the inner loop of `crc32_init`. -/
def crc32Shift (crc : BitVec 32) : BitVec 32 :=
  if crc &&& 1 ≠ 0 then (crc >>> 1) ^^^ 0xEDB88320 else crc >>> 1

/-- `crc32_tab`, as `crc32_init` fills it. -/
def crc32Tab : List (BitVec 32) :=
  (List.range 256).map fun i ↦ crc32Shift^[8] (BitVec.ofNat 32 i)

/-- `crc32`. -/
def crc32 (data : List UInt8) (crc : BitVec 32) : BitVec 32 :=
  ~~~ data.foldl
    (fun crc b ↦
      crc32Tab.getD ((crc ^^^ b.toBitVec.setWidth 32) &&& 0xFF).toNat 0 ^^^ (crc >>> 8))
    (~~~ crc)

/-- A value masked with `0xFF`. -/
def lowByte (x : Nat) : UInt8 := UInt8.ofNat (x &&& 0xFF)

/-- `put32le`. -/
def put32le (v : Nat) : List UInt8 :=
  [lowByte v, lowByte (v >>> 8), lowByte (v >>> 16), lowByte (v >>> 24)]

/-- The word in four bytes, as `recv_msg` puts it together. -/
def get32le (p : List UInt8) : Nat :=
  (p.getD 0 0).toNat ||| (p.getD 1 0).toNat <<< 8 ||| (p.getD 2 0).toNat <<< 16 |||
    (p.getD 3 0).toNat <<< 24

/-- The header after the magic. -/
def header (seq : Nat) (type : UInt8) (plen : Nat) : List UInt8 :=
  put32le seq ++ [type, lowByte plen, lowByte (plen >>> 8)]

/-- The checksum of a frame, chained over its parts. -/
def frameCrc (hdr payload : List UInt8) : BitVec 32 :=
  let csum := crc32 magic 0
  let csum := crc32 hdr csum
  if payload.length > 0 then crc32 payload csum else csum

/-- `send_msg`: the bytes written to the line. -/
def sendMsg (seq : Nat) (type : UInt8) (payload : List UInt8) : List UInt8 :=
  let hdr := header seq type payload.length
  magic ++ hdr ++ payload ++ put32le (frameCrc hdr payload).toNat

/-- What `recv_msg` reports instead of a frame, `RECV_ERR_IO` to `RECV_ERR_PROTOCOL`. -/
inductive RecvErr where
  | io | crc | truncated | protocol
  deriving DecidableEq, Repr

/-- `read_bytes_timeout` inside `recv_msg`. With a limit on the gap a silent line is a
truncated frame; without one the read blocks until it is interrupted. -/
def readBytesTimeout (n maxGapTicks : Nat) : EStateM RecvErr Rx (List UInt8) :=
  readLoop (if maxGapTicks ≠ 0 then .truncated else .io) n n []

/-- The ring of the last four bytes, `sync` and `si`. -/
structure Ring where
  sync : List UInt8
  si : Nat

/-- A byte enters the ring. -/
def Ring.push (r : Ring) (ch : UInt8) : Ring := ⟨r.sync.set r.si ch, (r.si + 1) &&& 3⟩

/-- The bytes of the ring, oldest first, `w`. -/
def Ring.window (r : Ring) : List UInt8 :=
  (List.range 4).map fun i ↦ r.sync.getD ((r.si + i) &&& 3) 0

/-- The types that `recv_msg` accepts. -/
def knownType (type : UInt8) : Bool :=
  type == Pkt.info.code || type == Pkt.data.code || type == Pkt.done.code ||
    type == Pkt.baud.code || type == Pkt.ack.code || type == Pkt.nak.code

/-- The loop of `recv_msg` at `resync`: scan to the magic, read the header, and go on
scanning from its last four bytes when its type is unknown. Every turn reads a byte, so the
first argument bounds the turns. -/
def syncLoop (stallNakTicks : Nat) : Nat → Ring → EStateM RecvErr Rx (List UInt8)
  | 0, _ => throw .io
  | turns + 1, ring => do
    let ch ← readBytesTimeout 1 stallNakTicks
    let ring := ring.push (ch.headD 0)
    if ring.window ≠ magic then syncLoop stallNakTicks turns ring
    else do
      let hdr ← readBytesTimeout 7 stallNakTicks
      if knownType (hdr.getD 4 0) then pure hdr
      else syncLoop stallNakTicks turns ⟨hdr.drop 3, 0⟩

/-- `recv_msg`: sequence number, type and payload of the next frame. -/
def recvMsg (stallNakTicks : Nat) : EStateM RecvErr Rx (Nat × UInt8 × List UInt8) := do
  let rx ← get
  let hdr ← syncLoop stallNakTicks (rx.bytes.length + 1) ⟨[0, 0, 0, 0], 0⟩
  let seq := get32le hdr
  let type := hdr.getD 4 0
  let plen := (hdr.getD 5 0).toNat ||| (hdr.getD 6 0).toNat <<< 8
  if plen > 512 then throw .protocol
  else do
    let payload ← if plen > 0 then readBytesTimeout plen stallNakTicks else pure []
    let crcRaw ← readBytesTimeout 4 stallNakTicks
    if (frameCrc hdr payload).toNat ≠ get32le crcRaw then throw .crc
    else pure (seq, type, payload)

end Board

/-! ## The host -/

namespace Host

/-- `zlib.crc32`: the standard reflected CRC-32. -/
def zlibCrc32 (data : List UInt8) : Nat := (Crc.checksum 0xEDB88320#32 data).toNat

/-- `struct.pack` of one unsigned little-endian number: it fails on a number too wide. -/
def pack (width x : Nat) : Option (List UInt8) :=
  if x < 256 ^ width then some (leBytes width x) else none

/-- `send_msg`: the bytes written to the line, or the error of `struct.pack`. -/
def sendMsg (seq : Nat) (type : UInt8) (payload : List UInt8) : Option (List UInt8) := do
  let seqBytes ← pack 4 seq
  let plen ← pack 2 payload.length
  let hdr := magic ++ (seqBytes ++ [type]) ++ plen
  let crc := zlibCrc32 (hdr ++ payload)
  let crcBytes ← pack 4 crc
  some (hdr ++ payload ++ crcBytes)

/-- What `recv_msg` raises: `TimeoutError` or `ValueError`. -/
inductive RecvErr where
  | timeout | value
  deriving DecidableEq, Repr

/-- `readall`. -/
def readall (n : Nat) : EStateM RecvErr Rx (List UInt8) := readLoop .timeout n n []

/-- The scan of `recv_msg` for the magic, with its last bytes `buf`. Every turn reads a
byte, so the first argument bounds the turns. -/
def scan : Nat → List UInt8 → EStateM RecvErr Rx Unit
  | 0, _ => throw .timeout
  | turns + 1, buf => do
    let c ← readall 1
    let buf := (buf ++ c).drop ((buf ++ c).length - 4)
    if buf = magic then pure () else scan turns buf

/-- `recv_msg`: sequence number, type and payload of the next frame. -/
def recvMsg : EStateM RecvErr Rx (Nat × UInt8 × List UInt8) := do
  let rx ← get
  scan (rx.bytes.length + 1) [0, 0, 0]
  let hdr ← readall 7
  let seq := leNat (hdr.take 4)
  let type := hdr.getD 4 0
  let plen := leNat ((hdr.drop 5).take 2)
  let payload ← if plen > 0 then readall plen else pure []
  let crcRaw ← readall 4
  if leNat crcRaw ≠ zlibCrc32 (magic ++ hdr ++ payload) then throw .value
  else pure (seq, type, payload)

end Host

end Xv6K210.Burn
