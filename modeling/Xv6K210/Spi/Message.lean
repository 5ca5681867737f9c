import Mathlib.Algebra.GroupWithZero.Nat
import Xv6K210.Base.ByteMem

/-!
# Messages of the SPI device

Source `kernel/devsw/spidev.c:88–205`. A message is an array of segments. Each segment
is bounced through its own part of two pages, and the pages are the bound for the lengths, which are
added in 32 bits.
-/

namespace Xv6K210.Spi

open Base

/-- `PGSIZE`. -/
def PGSIZE : Nat := 4096

/-- `SPIDEV_BUFSIZ`. -/
def SPIDEV_BUFSIZ : Nat := PGSIZE

/-- `SPI_IOC_MAGIC`, the letter k. -/
def SPI_IOC_MAGIC : Nat := 0x6B

/-- `_IOC_WRITE`. -/
def IOC_WRITE : Nat := 1

/-- `struct spi_ioc_transfer`: addresses of the user, or 0, and a length. -/
structure SpiIocTransfer where
  txBuf : Nat
  rxBuf : Nat
  len : BitVec 32
  deriving DecidableEq, Repr

/-- `sizeof(struct spi_ioc_transfer)`. -/
def sizeofSpiIocTransfer : Nat := 24

/-- `sizeof(struct spi_transfer)`. -/
def sizeofSpiTransfer : Nat := 24

/-- `struct spi_transfer`: offsets in the buffers of `spidev_message`, and a length. -/
structure SpiTransfer where
  txBuf : Nat
  rxBuf : Option Nat
  len : BitVec 32
  deriving DecidableEq, Repr

/-- `_IOC_TYPE`. -/
def iocType (cmd : Nat) : Nat := (cmd >>> 8) &&& 0xFF

/-- `_IOC_NR`. -/
def iocNr (cmd : Nat) : Nat := cmd &&& 0xFF

/-- `_IOC_DIR`. -/
def iocDir (cmd : Nat) : Nat := (cmd >>> 30) &&& 3

/-- `_IOC_SIZE`. -/
def iocSize (cmd : Nat) : Nat := (cmd >>> 16) &&& 0x3FFF

/-- `spidev_get_ioc_message`. The array of the user is `uIoc`, unless it cannot be copied. -/
def spidevGetIocMessage (cmd : Nat) (uIoc : Option (Nat → SpiIocTransfer)) :
    Option (List SpiIocTransfer) :=
  if iocType cmd ≠ SPI_IOC_MAGIC ∨ iocNr cmd ≠ 0 ∨ iocDir cmd ≠ IOC_WRITE then none
  else
    let tmp := iocSize cmd
    if tmp > PGSIZE ∨ tmp % sizeofSpiIocTransfer ≠ 0 then none
    else
      let nIoc := tmp / sizeofSpiIocTransfer
      if nIoc = 0 then none
      else uIoc.map fun u ↦ (List.range nIoc).map u

/-- What `spidev_message` gets from the rest of the kernel. -/
structure Kernel where
  /-- `kalloc_page` for the kernel's array -/
  page : Bool
  /-- `copyin` of some bytes at an address of the user -/
  copyin : Nat → Nat → Option (List UInt8)
  /-- `copyout` of some bytes to an address of the user -/
  copyout : Nat → List UInt8 → Bool
  /-- `spi_transfer` returns no error -/
  done : Bool
  /-- the bytes received in a segment, by their position -/
  received : Nat → Nat → UInt8
  /-- the receive buffer before the message -/
  rx : ByteMem

/-- The variables of the first loop of `spidev_message`. -/
structure Gather where
  total : BitVec 32
  rxTotal : BitVec 32
  txBuf : Nat
  rxBuf : Nat
  tx : ByteMem
  kXfers : List SpiTransfer

/-- The first loop of `spidev_message`. -/
def gather (k : Kernel) : List SpiIocTransfer → Gather → Option Gather
  | [], g => some g
  | u :: us, g =>
    let total := g.total + u.len
    if total.toNat > SPIDEV_BUFSIZ then none
    else
      let kTmp : SpiTransfer := { txBuf := g.txBuf, rxBuf := none, len := u.len }
      let g' := { g with total, txBuf := g.txBuf + u.len.toNat }
      match if u.txBuf ≠ 0 then (k.copyin u.txBuf u.len.toNat).map (store g.tx kTmp.txBuf)
        else some g.tx with
      | none => none
      | some tx =>
        if u.rxBuf ≠ 0 then
          let rxTotal := g.rxTotal + u.len
          if rxTotal.toNat > SPIDEV_BUFSIZ then none
          else
            gather k us { g' with
              rxTotal, tx, rxBuf := g.rxBuf + u.len.toNat
              kXfers := g.kXfers ++ [{ kTmp with rxBuf := some g.rxBuf }] }
        else gather k us { g' with tx, kXfers := g.kXfers ++ [kTmp] }

/-- The variables before the first loop, with the transmit buffer filled with `0xff`. -/
def Gather.start : Gather :=
  { total := 0, rxTotal := 0, txBuf := 0, rxBuf := 0, tx := fun _ ↦ 0xFF, kXfers := [] }

/-- The bytes received in the segment `i` of a length. -/
def Kernel.bytes (k : Kernel) (i len : Nat) : List UInt8 := (List.range len).map (k.received i)

/-- Where `spi_transfer` stores what is received, from the segment `i` on. -/
def Kernel.pieces (k : Kernel) : Nat → List SpiTransfer → List (Nat × List UInt8)
  | _, [] => []
  | i, x :: xs =>
    match x.rxBuf with
    | none => k.pieces (i + 1) xs
    | some off => (off, k.bytes i x.len.toNat) :: k.pieces (i + 1) xs

/-- The second loop of `spidev_message`, from the segment `i` on: the segments whose bytes are
copied to the user, with the bytes, and whether all were. -/
def scatter (k : Kernel) (rx : ByteMem) :
    Nat → Nat → List SpiIocTransfer → List (Nat × List UInt8) × Bool
  | _, _, [] => ([], true)
  | i, rxBuf, u :: us =>
    if u.rxBuf ≠ 0 then
      let bytes := load rx rxBuf u.len.toNat
      if k.copyout u.rxBuf bytes then
        let (copied, all) := scatter k rx (i + 1) (rxBuf + u.len.toNat) us
        ((i, bytes) :: copied, all)
      else ([], false)
    else scatter k rx (i + 1) rxBuf us

/-- What `spidev_message` does: the call of `spi_transfer`, what is copied to the user, and the
status. -/
structure Outcome where
  call : Option (List SpiTransfer)
  copied : List (Nat × List UInt8)
  status : Int

/-- `spidev_message`. -/
def spidevMessage (k : Kernel) (uXfers : List SpiIocTransfer) : Outcome :=
  if k.page = false then ⟨none, [], -1⟩
  else
    match gather k uXfers .start with
    | none => ⟨none, [], -1⟩
    | some g =>
      if g.total = 0 then ⟨none, [], -1⟩
      else if k.done = false then ⟨some g.kXfers, [], -1⟩
      else
        let rx := storeAll k.rx (k.pieces 0 g.kXfers)
        let (copied, all) := scatter k rx 0 0 uXfers
        ⟨some g.kXfers, copied, if all then g.total.toNat else -1⟩

/-! ### The segments -/

/-- The segments one behind the other, from the offsets `t` and `r` on. -/
def segments : Nat → Nat → List SpiIocTransfer → List SpiTransfer
  | _, _, [] => []
  | t, r, u :: us =>
    if u.rxBuf ≠ 0 then
      { txBuf := t, rxBuf := some r, len := u.len } ::
        segments (t + u.len.toNat) (r + u.len.toNat) us
    else { txBuf := t, rxBuf := none, len := u.len } :: segments (t + u.len.toNat) r us

/-- The lengths, added without an overflow. -/
def totalLen (us : List SpiIocTransfer) : Nat := (us.map fun u ↦ u.len.toNat).sum

/-- No transfer, no bytes. -/
@[simp] theorem totalLen_nil : totalLen [] = 0 := rfl

/-- The first transfer and the rest. -/
@[simp] theorem totalLen_cons (u : SpiIocTransfer) (us : List SpiIocTransfer) :
    totalLen (u :: us) = u.len.toNat + totalLen us := rfl

/-- What the first loop leaves: the segments, and the total modulo the width of the counter. -/
structure Gathered (us : List SpiIocTransfer) (g g' : Gather) : Prop where
  kXfers : g'.kXfers = g.kXfers ++ segments g.txBuf g.rxBuf us
  total : g'.total.toNat = (g.total.toNat + totalLen us) % 2 ^ 32
  bound : us ≠ [] → g'.total.toNat ≤ SPIDEV_BUFSIZ

private theorem gather_gathered (k : Kernel) (us : List SpiIocTransfer) {g g' : Gather}
    (h : gather k us g = some g') : Gathered us g g' := by
  induction us generalizing g with
  | nil =>
    cases h
    exact ⟨(List.append_nil _).symm, (Nat.mod_eq_of_lt (BitVec.isLt _)).symm,
      fun hne ↦ absurd rfl hne⟩
  | cons u us ih =>
    rw [gather] at h
    dsimp only at h
    by_cases hover : (g.total + u.len).toNat > SPIDEV_BUFSIZ
    · rw [if_pos hover] at h
      cases h
    rw [if_neg hover] at h
    -- the total of the rest starts from the sum, and is that sum if there is no rest
    have hsum : ∀ {g'' : Gather}, g''.total = g.total + u.len → Gathered us g'' g' →
        g'.total.toNat = (g.total.toNat + totalLen (u :: us)) % 2 ^ 32 := by
      intro g'' htotal hrest
      have hstart := hrest.total
      rw [htotal, BitVec.toNat_add] at hstart
      rw [hstart, totalLen_cons]
      omega
    have hbound : ∀ {g'' : Gather}, g''.total = g.total + u.len → Gathered us g'' g' →
        g'.total.toNat ≤ SPIDEV_BUFSIZ := by
      intro g'' htotal hrest
      by_cases hnil : us = []
      · have hstart := hrest.total
        rw [hnil, totalLen_nil, htotal, Nat.add_zero, Nat.mod_eq_of_lt (BitVec.isLt _)] at hstart
        omega
      · exact hrest.bound hnil
    split at h
    next => cases h
    next tx _ =>
      by_cases hrx : u.rxBuf ≠ 0
      · rw [if_pos hrx] at h
        by_cases hover' : (g.rxTotal + u.len).toNat > SPIDEV_BUFSIZ
        · rw [if_pos hover'] at h
          cases h
        rw [if_neg hover'] at h
        have hrest := ih h
        refine ⟨?_, hsum rfl hrest, fun _ ↦ hbound rfl hrest⟩
        rw [hrest.kXfers, segments, if_pos hrx, List.append_assoc]
        rfl
      · rw [if_neg hrx] at h
        have hrest := ih h
        refine ⟨?_, hsum rfl hrest, fun _ ↦ hbound rfl hrest⟩
        rw [hrest.kXfers, segments, if_neg hrx, List.append_assoc]
        rfl

/-- The ranges of the segments lie in the two buffers, and those of different segments are apart. -/
structure InBuffers (xs : List SpiTransfer) : Prop where
  tx : ∀ x ∈ xs, x.txBuf + x.len.toNat ≤ SPIDEV_BUFSIZ
  rx : ∀ x ∈ xs, ∀ off, x.rxBuf = some off → off + x.len.toNat ≤ SPIDEV_BUFSIZ
  txApart : xs.Pairwise fun x y ↦ x.txBuf + x.len.toNat ≤ y.txBuf
  rxApart : xs.Pairwise fun x y ↦ ∀ a b, x.rxBuf = some a → y.rxBuf = some b →
    a + x.len.toNat ≤ b

/-- The ranges of a segment among those from some offsets on. -/
theorem mem_segments {us : List SpiIocTransfer} {t r : Nat} {x : SpiTransfer}
    (h : x ∈ segments t r us) :
    t ≤ x.txBuf ∧ x.txBuf + x.len.toNat ≤ t + totalLen us ∧
      ∀ off, x.rxBuf = some off → r ≤ off ∧ off + x.len.toNat ≤ r + totalLen us := by
  induction us generalizing t r with
  | nil => cases h
  | cons u us ih =>
    rw [totalLen_cons]
    rw [segments] at h
    split at h
    all_goals
      rcases List.mem_cons.mp h with rfl | h
      · refine ⟨Nat.le_refl _, by dsimp only; omega, fun off hoff ↦ ?_⟩
        cases hoff
        try exact ⟨Nat.le_refl _, by dsimp only; omega⟩
      · obtain ⟨hlo, hhi, hrx⟩ := ih h
        refine ⟨by omega, by omega, fun off hoff ↦ ?_⟩
        have := hrx off hoff
        omega

/-- Some segment ends where the last one does. -/
theorem last_segment {us : List SpiIocTransfer} (hne : us ≠ []) (t r : Nat) :
    ∃ x ∈ segments t r us, x.txBuf + x.len.toNat = t + totalLen us := by
  induction us generalizing t r with
  | nil => exact absurd rfl hne
  | cons u us ih =>
    by_cases hnil : us = []
    · subst hnil
      rw [segments]
      split
      all_goals exact ⟨_, List.mem_cons_self, by simp⟩
    · rw [segments, totalLen_cons]
      split
      · obtain ⟨x, hmem, hx⟩ := ih hnil (t + u.len.toNat) (r + u.len.toNat)
        exact ⟨x, List.mem_cons_of_mem _ hmem, by omega⟩
      · obtain ⟨x, hmem, hx⟩ := ih hnil (t + u.len.toNat) r
        exact ⟨x, List.mem_cons_of_mem _ hmem, by omega⟩

private theorem segments_txApart (us : List SpiIocTransfer) (t r : Nat) :
    (segments t r us).Pairwise fun x y ↦ x.txBuf + x.len.toNat ≤ y.txBuf := by
  induction us generalizing t r with
  | nil => exact .nil
  | cons u us ih =>
    rw [segments]
    split
    all_goals exact .cons (fun y hy ↦ (mem_segments hy).1) (ih _ _)

private theorem segments_rxApart (us : List SpiIocTransfer) (t r : Nat) :
    (segments t r us).Pairwise fun x y ↦ ∀ a b, x.rxBuf = some a → y.rxBuf = some b →
      a + x.len.toNat ≤ b := by
  induction us generalizing t r with
  | nil => exact .nil
  | cons u us ih =>
    rw [segments]
    split
    · refine .cons (fun y hy a b ha hb ↦ ?_) (ih _ _)
      cases ha
      exact ((mem_segments hy).2.2 b hb).1
    · refine .cons (fun y hy a b ha hb ↦ ?_) (ih _ _)
      cases ha

/-- The segments are in the buffers if and only if the lengths add up to no more than a buffer. -/
theorem segments_inBuffers (us : List SpiIocTransfer) :
    InBuffers (segments 0 0 us) ↔ totalLen us ≤ SPIDEV_BUFSIZ := by
  constructor
  · intro h
    by_cases hnil : us = []
    · rw [hnil]
      exact Nat.zero_le _
    · obtain ⟨x, hmem, hx⟩ := last_segment hnil 0 0
      have := h.tx x hmem
      omega
  · intro h
    refine ⟨fun x hx ↦ ?_, fun x hx off hoff ↦ ?_, segments_txApart us 0 0, segments_rxApart us 0 0⟩
    · have := (mem_segments hx).2.1
      omega
    · have := ((mem_segments hx).2.2 off hoff).2
      omega

/-! ### The bytes received -/

/-- As many bytes as asked. -/
@[simp] theorem length_bytes (k : Kernel) (i len : Nat) : (k.bytes i len).length = len := by
  simp [Kernel.bytes]

private theorem le_of_mem_pieces {k : Kernel} {us : List SpiIocTransfer} {i t r : Nat}
    {p : Nat × List UInt8} (h : p ∈ k.pieces i (segments t r us)) : r ≤ p.1 := by
  induction us generalizing i t r with
  | nil => cases h
  | cons u us ih =>
    rw [segments] at h
    split at h
    · rw [Kernel.pieces] at h
      rcases List.mem_cons.mp h with rfl | h
      · exact Nat.le_refl _
      · exact Nat.le_trans (Nat.le_add_right _ _) (ih h)
    · exact ih h

/-- What is received in different segments goes to different bytes. -/
theorem pieces_apart (k : Kernel) (us : List SpiIocTransfer) (i t r : Nat) :
    (k.pieces i (segments t r us)).Pairwise Apart := by
  induction us generalizing i t r with
  | nil => exact .nil
  | cons u us ih =>
    rw [segments]
    split
    · rw [Kernel.pieces]
      refine .cons (fun p hp ↦ .inl ?_) (ih _ _ _)
      rw [length_bytes]
      exact le_of_mem_pieces hp
    · exact ih _ _ _

/-- The second loop copies what was received in the same segment, as its offsets are those of the
first loop. -/
theorem mem_scatter {k : Kernel} {m : ByteMem} {us : List SpiIocTransfer} {i t r : Nat}
    (hm : ∀ p ∈ k.pieces i (segments t r us), load m p.1 p.2.length = p.2)
    {c : Nat × List UInt8} (hc : c ∈ (scatter k m i r us).1) :
    ∃ n u, us[n]? = some u ∧ c = (i + n, k.bytes (i + n) u.len.toNat) := by
  induction us generalizing i t r with
  | nil => cases hc
  | cons u us ih =>
    have hlater : (∃ n v, us[n]? = some v ∧ c = (i + 1 + n, k.bytes (i + 1 + n) v.len.toNat)) →
        ∃ n v, (u :: us)[n]? = some v ∧ c = (i + n, k.bytes (i + n) v.len.toNat) := by
      rintro ⟨n, v, hv, hcopy⟩
      rw [Nat.add_right_comm i 1 n] at hcopy
      exact ⟨n + 1, v, hv, hcopy⟩
    rw [scatter] at hc
    rw [segments] at hm
    by_cases hrx : u.rxBuf ≠ 0
    · rw [if_pos hrx] at hc hm
      dsimp only at hc
      split at hc
      · rw [Kernel.pieces] at hm
        rcases List.mem_cons.mp hc with rfl | hc
        · refine ⟨0, u, rfl, Prod.ext rfl ?_⟩
          have hfirst := hm _ List.mem_cons_self
          rw [length_bytes] at hfirst
          exact hfirst
        · exact hlater (ih (fun p hp ↦ hm p (List.mem_cons_of_mem _ hp)) hc)
      · cases hc
    · rw [if_neg hrx] at hc hm
      exact hlater (ih hm hc)

/-- The bytes copied to the user are those that were received for the segment. -/
theorem copied_received (k : Kernel) (us : List SpiIocTransfer) {c : Nat × List UInt8}
    (hc : c ∈ (spidevMessage k us).copied) :
    ∃ u, us[c.1]? = some u ∧ c.2 = k.bytes c.1 u.len.toNat := by
  unfold spidevMessage at hc
  split at hc
  next => cases hc
  next =>
    split at hc
    next => cases hc
    next g hg =>
      split at hc
      next => cases hc
      next =>
        split at hc
        next => cases hc
        next =>
          have hxfers := (gather_gathered k us hg).kXfers
          rw [show g.kXfers = segments 0 0 us from hxfers] at hc
          obtain ⟨n, u, hu, rfl⟩ :=
            mem_scatter (fun p hp ↦ load_storeAll k.rx (pieces_apart k us 0 0 0) hp) hc
          rw [Nat.zero_add]
          exact ⟨u, hu, rfl⟩

/-- A call of `spi_transfer` comes from the end of the first loop. -/
theorem call_gathered {k : Kernel} {us : List SpiIocTransfer} {xfers : List SpiTransfer}
    (h : (spidevMessage k us).call = some xfers) :
    ∃ g, gather k us .start = some g ∧ xfers = g.kXfers := by
  unfold spidevMessage at h
  split at h
  next => cases h
  next =>
    split at h
    next => cases h
    next g hg =>
      refine ⟨g, hg, ?_⟩
      split at h
      next => cases h
      next =>
        split at h
        all_goals exact (Option.some.inj h).symm

/-- The kernel's array of segments is in its page. -/
theorem message_length {cmd : Nat} {uIoc : Option (Nat → SpiIocTransfer)}
    {msg : List SpiIocTransfer} (h : spidevGetIocMessage cmd uIoc = some msg) :
    msg ≠ [] ∧ msg.length * sizeofSpiTransfer ≤ PGSIZE := by
  unfold spidevGetIocMessage at h
  split at h
  · cases h
  dsimp only at h
  split at h
  · cases h
  next hsize =>
    split at h
    · cases h
    next hcount =>
      obtain ⟨u, -, rfl⟩ := Option.map_eq_some_iff.mp h
      unfold sizeofSpiIocTransfer at hsize hcount
      rw [List.length_map, List.length_range]
      unfold sizeofSpiTransfer sizeofSpiIocTransfer
      refine ⟨fun hnil ↦ hcount ?_, by omega⟩
      have := congrArg List.length hnil
      rwa [List.length_map, List.length_range] at this

/-- When `spi_transfer` is called, the ranges of the segments lie in the bounce buffers and are
apart, and what is copied back to a segment was received for it, if and only if the lengths of the
message do not add up to 2^32 or more. -/
theorem message_inBuffers (k : Kernel) (cmd : Nat) (uIoc : Option (Nat → SpiIocTransfer))
    (msg : List SpiIocTransfer) (xfers : List SpiTransfer)
    (hmsg : spidevGetIocMessage cmd uIoc = some msg)
    (hcall : (spidevMessage k msg).call = some xfers) :
    (InBuffers xfers ∧ ∀ c ∈ (spidevMessage k msg).copied,
      ∃ u, msg[c.1]? = some u ∧ c.2 = k.bytes c.1 u.len.toNat) ↔ totalLen msg < 2 ^ 32 := by
  obtain ⟨g, hg, rfl⟩ := call_gathered hcall
  obtain ⟨hkXfers, htotal, hbound⟩ := gather_gathered k msg hg
  have hin : InBuffers g.kXfers ↔ totalLen msg ≤ SPIDEV_BUFSIZ := by
    rw [show g.kXfers = segments 0 0 msg from hkXfers]
    exact segments_inBuffers msg
  have hlast := hbound (message_length hmsg).1
  have hstart : Gather.start.total.toNat = 0 := rfl
  rw [hin, and_iff_left fun c hc ↦ copied_received k msg hc]
  unfold SPIDEV_BUFSIZ PGSIZE at *
  constructor
  · intro h
    omega
  · intro h
    rw [hstart, Nat.zero_add, Nat.mod_eq_of_lt h] at htotal
    omega

/-- A kernel in which nothing fails. -/
def quietKernel : Kernel where
  page := true
  copyin := fun _ len ↦ some (List.replicate len 0)
  copyout := fun _ _ ↦ true
  done := true
  received := fun _ _ ↦ 0xFF
  rx := fun _ ↦ 0

/-- Two segments: a command, and what it is answered. -/
def readMessage : Nat → SpiIocTransfer
  | 0 => ⟨0x1000, 0, 4⟩
  | _ => ⟨0, 0x2000, 16⟩

/-- A write and a read that stay inside. -/
theorem message_inBuffers_read : InBuffers [⟨0, none, 4⟩, ⟨4, some 0, 16⟩] :=
  ((message_inBuffers quietKernel 0x40306B00 (some readMessage) [⟨0x1000, 0, 4⟩, ⟨0, 0x2000, 16⟩] _
    (by decide) (by decide)).mpr (by decide)).1

/-- Two segments whose lengths add up to 2^32, and one more. -/
def wrappedMessage : Nat → SpiIocTransfer
  | 0 => ⟨0, 0, 4096⟩
  | 1 => ⟨0, 0, 0xFFFFF000⟩
  | _ => ⟨0, 0, 1⟩

/-- The transmit range of its second segment ends 4 GiB behind the buffer. -/
theorem wrapped_outside : ∃ msg xfers,
    spidevGetIocMessage 0x40486B00 (some wrappedMessage) = some msg ∧
      (spidevMessage quietKernel msg).call = some xfers ∧ ¬ InBuffers xfers := by
  refine ⟨[⟨0, 0, 4096⟩, ⟨0, 0, 0xFFFFF000⟩, ⟨0, 0, 1⟩],
    [⟨0, none, 4096⟩, ⟨4096, none, 0xFFFFF000⟩, ⟨4294967296, none, 1⟩], by decide, by decide, ?_⟩
  intro h
  have := h.tx ⟨4096, none, 0xFFFFF000⟩ (by decide)
  revert this
  decide

end Xv6K210.Spi
