import Xv6K210.Burn.Frame

/-!
# The two codecs of the burn protocol agree

What one side of the burn protocol writes, the other side reads. The sides share no code:
the board shifts and masks and takes its checksum by table over three parts, the host packs
and unpacks structures and takes the checksum of the whole.
-/

namespace Xv6K210.Burn

open Base

/-! ## Reading -/

/-- `Reads m xs a`: the reader takes `xs` off the line, however the bytes are buffered, and
returns `a`. -/
def Reads {ε α : Type} (m : EStateM ε Rx α) (xs : List UInt8) (a : α) : Prop :=
  ∀ rest bursts, ∃ bursts', m ⟨xs ++ rest, bursts⟩ = .ok a ⟨rest, bursts'⟩

namespace Reads

variable {ε α β : Type}

/-- Nothing is read. -/
theorem pure (a : α) : Reads (pure a : EStateM ε Rx α) [] a :=
  fun _ bursts ↦ ⟨bursts, rfl⟩

/-- Two readers one after the other. -/
theorem bind {m : EStateM ε Rx α} {f : α → EStateM ε Rx β} {xs ys : List UInt8} {a : α} {b : β}
    (hm : Reads m xs a) (hf : Reads (f a) ys b) : Reads (m >>= f) (xs ++ ys) b := by
  intro rest bursts
  obtain ⟨bursts1, h1⟩ := hm (ys ++ rest) bursts
  obtain ⟨bursts2, h2⟩ := hf rest bursts1
  refine ⟨bursts2, ?_⟩
  rw [List.append_assoc]
  simp only [Bind.bind, EStateM.bind, h1]
  exact h2

/-- A reader may look at the length of the line first. -/
theorem get_bind {f : Rx → EStateM ε Rx α} {xs : List UInt8} {a : α}
    (h : ∀ rx : Rx, xs.length ≤ rx.bytes.length → Reads (f rx) xs a) :
    Reads (get >>= f) xs a := by
  intro rest bursts
  have hlen : xs.length ≤ (xs ++ rest).length := by
    rw [List.length_append]
    omega
  exact h ⟨xs ++ rest, bursts⟩ hlen rest bursts

/-- The read loop collects the next bytes, in as many reads as it takes. -/
theorem readLoop (silent : ε) (turns : Nat) (xs buf : List UInt8) (h : xs.length ≤ turns) :
    Reads (readLoop silent turns xs.length buf) xs (buf ++ xs) := by
  induction turns generalizing xs buf with
  | zero =>
    have hxs : xs = [] := List.length_eq_zero_iff.mp (Nat.le_zero.mp h)
    intro rest bursts
    exact ⟨bursts, by simp [hxs, Burn.readLoop, Pure.pure, EStateM.pure]⟩
  | succ turns ih =>
    intro rest bursts
    by_cases hxs : xs = []
    · exact ⟨bursts, by simp [hxs, Burn.readLoop, Pure.pure, EStateM.pure]⟩
    · have hpos : 0 < xs.length := List.length_pos_iff.mpr hxs
      set got := min xs.length (max 1 (bursts.headD 1)) with hgot
      have hle : got ≤ xs.length := Nat.min_le_left _ _
      have hone : 1 ≤ got := by omega
      have hread : Rx.read ⟨xs ++ rest, bursts⟩ xs.length =
          (xs.take got, ⟨xs.drop got ++ rest, bursts.tail⟩) := by
        simp only [Rx.read, ← hgot, List.take_append_of_le_length hle,
          List.drop_append_of_le_length hle]
      have hturn : Burn.readLoop silent (turns + 1) xs.length buf ⟨xs ++ rest, bursts⟩ =
          Burn.readLoop silent turns (xs.drop got).length (buf ++ xs.take got)
            ⟨xs.drop got ++ rest, bursts.tail⟩ := by
        have hlen : xs.length - (xs.take got).length = (xs.drop got).length := by
          rw [List.length_take, List.length_drop, Nat.min_eq_left hle]
        have hne : xs ++ rest ≠ [] := by simp [hxs]
        rw [Burn.readLoop, if_neg (Nat.pos_iff_ne_zero.mp hpos)]
        change (if xs ++ rest = [] then (throw silent : EStateM ε Rx _) else _) _ = _
        rw [if_neg hne]
        change Burn.readLoop silent turns
          (xs.length - (Rx.read ⟨xs ++ rest, bursts⟩ xs.length).1.length)
          (buf ++ (Rx.read ⟨xs ++ rest, bursts⟩ xs.length).1)
          (Rx.read ⟨xs ++ rest, bursts⟩ xs.length).2 = _
        rw [hread, hlen]
      have hshort : (xs.drop got).length ≤ turns := by
        rw [List.length_drop]
        omega
      obtain ⟨bursts', hrun⟩ := ih (xs.drop got) (buf ++ xs.take got) hshort rest bursts.tail
      refine ⟨bursts', ?_⟩
      rw [hturn, hrun, List.append_assoc, List.take_append_drop]

end Reads

/-- `read_bytes_timeout` returns the next bytes of the line. -/
theorem Board.reads_bytes (gap : Nat) (xs : List UInt8) :
    Reads (Board.readBytesTimeout xs.length gap) xs xs :=
  Reads.readLoop _ _ xs [] (Nat.le_refl _)

/-- `readall` returns the next bytes of the line. -/
theorem Host.reads_all (xs : List UInt8) : Reads (Host.readall xs.length) xs xs :=
  Reads.readLoop _ _ xs [] (Nat.le_refl _)

/-! ## Words -/

private theorem Board.lowByte_eq (x : Nat) : Board.lowByte x = UInt8.ofNat (x % 256) := by
  rw [Board.lowByte, show 0xFF = 2 ^ 8 - 1 from rfl, Nat.and_two_pow_sub_one_eq_mod]

/-- The board stores words in little-endian order. -/
theorem Board.put32le_eq (v : Nat) : Board.put32le v = leBytes 4 v := by
  simp only [Board.put32le, Board.lowByte_eq, Nat.shiftRight_eq_div_pow, leBytes,
    Nat.div_div_eq_div_mul]

private theorem or_shiftLeft (a b k : Nat) (h : a < 2 ^ k) : a ||| b <<< k = a + 2 ^ k * b := by
  rw [Nat.or_comm, ← Nat.shiftLeft_add_eq_or_of_lt h, Nat.shiftLeft_eq,
    Nat.add_comm, Nat.mul_comm]

/-- The board loads words in little-endian order. -/
theorem Board.get32le_eq (b0 b1 b2 b3 : UInt8) (bs : List UInt8) :
    Board.get32le (b0 :: b1 :: b2 :: b3 :: bs) = leNat [b0, b1, b2, b3] := by
  have h0 := b0.toNat_lt
  have h1 := b1.toNat_lt
  have h2 := b2.toNat_lt
  simp only [Board.get32le, List.getD_cons_zero, List.getD_cons_succ, leNat]
  rw [or_shiftLeft _ _ 8 (by omega), or_shiftLeft _ _ 16 (by omega),
    or_shiftLeft _ _ 24 (by omega)]
  omega

/-- The length field holds the length. -/
theorem leNat_plen (n : Nat) (h : n < 2 ^ 16) :
    leNat [Board.lowByte n, Board.lowByte (n >>> 8)] = n := by
  have hb : leBytes 2 n = [Board.lowByte n, Board.lowByte (n >>> 8)] := by
    simp only [Board.lowByte_eq, Nat.shiftRight_eq_div_pow, leBytes]
  rw [← hb, leNat_leBytes, Nat.mod_eq_of_lt (by exact h)]

/-! ## The checksum -/

private theorem Board.crc32Shift_eq : Board.crc32Shift = Crc.drop 0xEDB88320#32 := by
  funext r
  have h : (r &&& 1 ≠ 0) ↔ r.getLsbD 0 = true := by
    rw [show (1 : BitVec 32) = 1#32 from rfl, BitVec.and_one_eq_setWidth_ofBool_getLsbD]
    cases r.getLsbD 0 <;> decide
  simp only [Board.crc32Shift, Crc.drop, Crc.shiftBit, h, Bool.xor_false]
  rfl

/-- One turn of the loop of `crc32` takes the eight bits of a byte. -/
theorem Board.crc32_byte (crc : BitVec 32) (b : UInt8) :
    Board.crc32Tab.getD ((crc ^^^ b.toBitVec.setWidth 32) &&& 0xFF).toNat 0 ^^^ (crc >>> 8) =
      Crc.feed 0xEDB88320#32 crc (Crc.byteBits b) := by
  rw [Crc.feed_byte _ (by decide), ← Board.crc32Shift_eq]
  generalize hx : (crc ^^^ b.toBitVec.setWidth 32) &&& 0xFF#32 = x
  have hlt : x.toNat < 256 := by
    rw [← hx, BitVec.toNat_and]
    exact Nat.and_lt_two_pow (n := 8) _ (by decide)
  have htab : Board.crc32Tab.getD x.toNat 0 = Board.crc32Shift^[8] x := by
    simp [Board.crc32Tab, List.getD_eq_getElem?_getD, hlt]
  exact congrArg (· ^^^ crc >>> 8) (hx ▸ htab)

/-- The checksum by table is the bitwise one, from any chained value. -/
theorem Board.crc32_eq (data : List UInt8) (crc : BitVec 32) :
    Board.crc32 data crc =
      ~~~ Crc.feed 0xEDB88320#32 (~~~ crc) (data.flatMap Crc.byteBits) := by
  unfold Board.crc32
  congr 1
  generalize ~~~ crc = r
  induction data generalizing r with
  | nil => rfl
  | cons b data ih =>
    rw [List.foldl_cons, Board.crc32_byte, ih, List.flatMap_cons, Crc.feed_append]

/-- The checksum of two parts is chained through the checksum of the first. -/
theorem Board.crc32_append (a b : List UInt8) (crc : BitVec 32) :
    Board.crc32 b (Board.crc32 a crc) = Board.crc32 (a ++ b) crc := by
  rw [Board.crc32_eq b, Board.crc32_eq a, Board.crc32_eq (a ++ b), BitVec.not_not,
    List.flatMap_append, Crc.feed_append]

/-- The checksum of a frame is the checksum of its bytes. -/
theorem Board.frameCrc_eq (hdr payload : List UInt8) :
    (Board.frameCrc hdr payload).toNat = Host.zlibCrc32 (magic ++ hdr ++ payload) := by
  have h : Board.frameCrc hdr payload = Board.crc32 (magic ++ hdr ++ payload) 0 := by
    unfold Board.frameCrc
    cases payload with
    | nil => simp [Board.crc32_append]
    | cons b bs => simp [Board.crc32_append]
  rw [h, Board.crc32_eq]
  rfl

/-! ## Frames -/

/-- The header that the host packs is the header of the board. -/
theorem Host.header_eq (seq : Nat) (type : UInt8) (plen : Nat) :
    leBytes 4 seq ++ [type] ++ leBytes 2 plen = Board.header seq type plen := by
  have hplen : leBytes 2 plen = [Board.lowByte plen, Board.lowByte (plen >>> 8)] := by
    simp only [Board.lowByte_eq, Nat.shiftRight_eq_div_pow, leBytes]
  rw [Board.header, Board.put32le_eq, hplen, List.append_assoc]
  rfl

/-- The host writes the same bytes as the board, as long as the fields fit. -/
theorem Host.sendMsg_eq (seq : Nat) (type : UInt8) (payload : List UInt8) (hseq : seq < 2 ^ 32)
    (hlen : payload.length < 2 ^ 16) :
    Host.sendMsg seq type payload = some (Board.sendMsg seq type payload) := by
  have hcrc : ∀ data, Host.zlibCrc32 data < 256 ^ 4 := fun data ↦ BitVec.isLt _
  have hseq4 : seq < 256 ^ 4 := hseq
  have hlen2 : payload.length < 256 ^ 2 := hlen
  simp only [Host.sendMsg, Host.pack, hseq4, hlen2, hcrc, if_true, Board.sendMsg,
    Board.put32le_eq, Board.frameCrc_eq, Option.bind_eq_bind, Option.bind_some,
    List.append_assoc magic, Host.header_eq]

/-- The host finds the magic at the front of the line. -/
theorem Host.reads_magic (turns : Nat) (h : 4 ≤ turns) :
    Reads (Host.scan turns [0, 0, 0]) magic () := by
  obtain ⟨k, rfl⟩ := Nat.exists_eq_add_of_le' h
  have hone : ∀ b, Reads (Host.readall 1) [b] [b] := fun b ↦ Host.reads_all [b]
  exact (hone 0x55).bind ((hone 0xAA).bind ((hone 0x55).bind ((hone 0xAA).bind (.pure ()))))

/-- The board finds the magic at the front of the line and then reads the header. -/
theorem Board.reads_header (stall turns : Nat) (h : 4 ≤ turns) (seq plen : Nat) (type : UInt8)
    (htype : Board.knownType type = true) :
    Reads (Board.syncLoop stall turns ⟨[0, 0, 0, 0], 0⟩) (magic ++ Board.header seq type plen)
      (Board.header seq type plen) := by
  obtain ⟨k, rfl⟩ := Nat.exists_eq_add_of_le' h
  have hone : ∀ b, Reads (Board.readBytesTimeout 1 stall) [b] [b] :=
    fun b ↦ Board.reads_bytes stall [b]
  have hhdr := Board.reads_bytes stall (Board.header seq type plen)
  have hend : Reads (do
      let hdr ← Board.readBytesTimeout 7 stall
      if Board.knownType (hdr.getD 4 0) then pure hdr
      else Board.syncLoop stall k ⟨hdr.drop 3, 0⟩) (Board.header seq type plen ++ [])
      (Board.header seq type plen) := by
    have hknown : Board.knownType ((Board.header seq type plen).getD 4 0) = true := htype
    refine hhdr.bind ?_
    rw [if_pos hknown]
    exact .pure _
  rw [List.append_nil] at hend
  exact (hone 0x55).bind ((hone 0xAA).bind ((hone 0x55).bind ((hone 0xAA).bind hend)))

/-- The board knows the code of every packet. -/
theorem Pkt.knownType_code (t : Pkt) : Board.knownType t.code = true := by
  cases t <;> rfl

/-- The board reads back the sequence number of a header. -/
theorem Board.get32le_header (seq plen : Nat) (type : UInt8) (h : seq < 2 ^ 32) :
    Board.get32le (Board.header seq type plen) = seq := by
  have hbytes : leNat (leBytes 4 seq) = seq := by
    rw [leNat_leBytes, Nat.mod_eq_of_lt (by exact h)]
  rw [← Board.put32le_eq] at hbytes
  exact (Board.get32le_eq _ _ _ _ _).trans hbytes

/-- The board reads back the length of a header. -/
theorem Board.plen_header (seq plen : Nat) (type : UInt8) (h : plen < 2 ^ 16) :
    ((Board.header seq type plen).getD 5 0).toNat |||
      ((Board.header seq type plen).getD 6 0).toNat <<< 8 = plen := by
  have hbytes := leNat_plen plen h
  have hlow := (Board.lowByte plen).toNat_lt
  exact (or_shiftLeft _ _ 8 hlow).trans hbytes

/-- The payload after a header, and what is read after it. The length decides whether a
payload is read at all. -/
theorem Reads.payload {ε β : Type} {m : Nat → EStateM ε Rx (List UInt8)}
    {f : List UInt8 → EStateM ε Rx β} {payload ys : List UInt8} {b : β}
    (hm : Reads (m payload.length) payload payload) (hf : Reads (f payload) ys b) :
    Reads (if payload.length > 0 then m payload.length >>= f else Pure.pure [] >>= f)
      (payload ++ ys) b := by
  by_cases h : payload.length > 0
  · rw [if_pos h]
    exact hm.bind hf
  · have hnil : payload = [] := List.length_eq_zero_iff.mp (by omega)
    rw [if_neg h, hnil]
    rw [hnil] at hf
    exact (Reads.pure []).bind hf

/-- A frame is longer than its magic. -/
theorem Board.length_sendMsg (seq : Nat) (type : UInt8) (payload : List UInt8) :
    (Board.sendMsg seq type payload).length = payload.length + 15 := by
  simp only [Board.sendMsg, Board.header, Board.put32le, magic, List.length_append,
    List.length_cons, List.length_nil]
  omega

/-- Behind the bytes up to the end of a header, the board decodes the rest of the frame. -/
theorem Board.reads_synced (stall seq : Nat) (type : UInt8) (payload pre : List UInt8)
    (hsync : ∀ turns, pre.length < turns → Reads (Board.syncLoop stall turns ⟨[0, 0, 0, 0], 0⟩)
      (pre ++ Board.header seq type payload.length) (Board.header seq type payload.length))
    (hseq : seq < 2 ^ 32) (hlen : payload.length ≤ 512) :
    Reads (Board.recvMsg stall) (pre ++ Board.header seq type payload.length ++ (payload ++
      Board.put32le (Board.frameCrc (Board.header seq type payload.length) payload).toNat))
      (seq, type, payload) := by
  have hcrc : Board.get32le (Board.put32le (Board.frameCrc
      (Board.header seq type payload.length) payload).toNat) =
      (Board.frameCrc (Board.header seq type payload.length) payload).toNat := by
    have h := leNat_leBytes 4
      (Board.frameCrc (Board.header seq type payload.length) payload).toNat
    rw [Nat.mod_eq_of_lt (by exact BitVec.isLt _), ← Board.put32le_eq] at h
    exact (Board.get32le_eq _ _ _ _ _).trans h
  refine Reads.get_bind fun rx hrx ↦ ?_
  have hturns : pre.length < rx.bytes.length + 1 := by
    rw [List.length_append, List.length_append] at hrx
    omega
  refine (hsync _ hturns).bind ?_
  dsimp only
  rw [Board.get32le_header _ _ _ hseq, Board.plen_header _ _ _ (by omega),
    if_neg (by omega)]
  rw [← List.append_nil (Board.put32le _)]
  refine Reads.payload (m := (Board.readBytesTimeout · stall))
    (Board.reads_bytes stall payload) ?_
  refine (Board.reads_bytes stall (Board.put32le _)).bind ?_
  rw [hcrc, if_neg (fun h ↦ h rfl)]
  exact .pure _

/-- The board decodes what the board encodes. -/
theorem Board.reads_frame (stall seq : Nat) (type : UInt8) (payload : List UInt8)
    (hseq : seq < 2 ^ 32) (htype : Board.knownType type = true) (hlen : payload.length ≤ 512) :
    Reads (Board.recvMsg stall) (Board.sendMsg seq type payload) (seq, type, payload) := by
  rw [Board.sendMsg, List.append_assoc]
  exact Board.reads_synced stall seq type payload magic
    (fun turns h ↦ Board.reads_header stall turns (Nat.le_of_lt h) seq payload.length type htype)
    hseq hlen

/-- The host decodes what the board encodes. -/
theorem Host.reads_frame (seq : Nat) (type : UInt8) (payload : List UInt8)
    (hseq : seq < 2 ^ 32) (hlen : payload.length < 2 ^ 16) :
    Reads Host.recvMsg (Board.sendMsg seq type payload) (seq, type, payload) := by
  have hcrc : leNat (Board.put32le (Board.frameCrc
      (Board.header seq type payload.length) payload).toNat) =
      Host.zlibCrc32 (magic ++ Board.header seq type payload.length ++ payload) := by
    rw [Board.put32le_eq, leNat_leBytes, Nat.mod_eq_of_lt (by exact BitVec.isLt _),
      Board.frameCrc_eq]
  have hseq' : leNat ((Board.header seq type payload.length).take 4) = seq := by
    have h : leNat (leBytes 4 seq) = seq := by
      rw [leNat_leBytes, Nat.mod_eq_of_lt (by exact hseq)]
    rw [← Board.put32le_eq] at h
    exact h
  have hplen : leNat (((Board.header seq type payload.length).drop 5).take 2) =
      payload.length := leNat_plen _ hlen
  refine Reads.get_bind fun rx hrx ↦ ?_
  have hturns : 4 ≤ rx.bytes.length + 1 := by
    rw [Board.length_sendMsg] at hrx
    omega
  rw [Board.sendMsg, List.append_assoc, List.append_assoc]
  refine (Host.reads_magic _ hturns).bind ?_
  refine (Host.reads_all (Board.header seq type payload.length)).bind ?_
  dsimp only
  rw [hplen]
  rw [← List.append_nil (Board.put32le _)]
  refine Reads.payload (Host.reads_all payload) ?_
  refine (Host.reads_all (Board.put32le _)).bind ?_
  rw [hcrc, if_neg (fun h ↦ h rfl), hseq']
  exact .pure _

/-- The two codecs agree. What the board's `send_msg` writes for any sequence number, packet
type and payload of at most 512 bytes, the host's `recv_msg` decodes to the same triple, and
the other way round, however the bytes are buffered and whatever follows them on the line.
The checksum by table, chained over three parts, is the CRC-32 of their concatenation. -/
theorem codec_round_trip (seq : Nat) (type : Pkt) (payload : List UInt8) (hseq : seq < 2 ^ 32)
    (hlen : payload.length ≤ 512) :
    (∀ rest bursts, ∃ bursts',
      Host.recvMsg ⟨Board.sendMsg seq type.code payload ++ rest, bursts⟩ =
        .ok (seq, type.code, payload) ⟨rest, bursts'⟩) ∧
    (∃ bytes, Host.sendMsg seq type.code payload = some bytes ∧
      ∀ stall rest bursts, ∃ bursts', Board.recvMsg stall ⟨bytes ++ rest, bursts⟩ =
        .ok (seq, type.code, payload) ⟨rest, bursts'⟩) ∧
    (∀ a b c, (Board.crc32 c (Board.crc32 b (Board.crc32 a 0))).toNat =
      Host.zlibCrc32 (a ++ b ++ c)) := by
  refine ⟨?_, ⟨Board.sendMsg seq type.code payload, ?_, fun stall ↦ ?_⟩, fun a b c ↦ ?_⟩
  · exact Host.reads_frame seq type.code payload hseq (by omega)
  · exact Host.sendMsg_eq seq type.code payload hseq (by omega)
  · exact Board.reads_frame stall seq type.code payload hseq type.knownType_code hlen
  · rw [Board.crc32_append, Board.crc32_append, ← List.append_assoc, Board.crc32_eq]
    rfl

/-- The acknowledgement of sector 7. -/
theorem codec_round_trip_ack :
    ∃ bursts', Host.recvMsg ⟨Board.sendMsg 7 Pkt.ack.code [0, 1, 2, 3, 4] ++ [], []⟩ =
      .ok (7, Pkt.ack.code, [0, 1, 2, 3, 4]) ⟨[], bursts'⟩ :=
  (codec_round_trip 7 .ack [0, 1, 2, 3, 4] (by decide) (by decide)).1 [] []

end Xv6K210.Burn
