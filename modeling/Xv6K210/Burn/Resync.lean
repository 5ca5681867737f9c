import Mathlib.Data.List.Infix
import Xv6K210.Burn.Codec

/-!
# Junk before a frame

Source `src/user/app/burn.c:284–384`. The board scans for the magic. Behind a magic that no frame
starts with it has read seven more bytes, keeps the last four of them, and looks at its window only
after the next byte. So the seven positions behind a false magic are not tried.
-/

namespace Xv6K210.Burn

open Base

/-- No position of the junk begins a magic and a header of a known type. -/
def NoFalseFrame (junk frame : List UInt8) : Prop :=
  ∀ i < junk.length, magic <+: (junk ++ frame).drop i →
    Board.knownType ((junk ++ frame).getD (i + 8) 0) = false

/-- `jumps skip junk frame`: the scan of the board, which does not try the first `skip` positions,
does not try the first position of the frame. -/
def jumps : Nat → List UInt8 → List UInt8 → Bool
  | skip, [], _ => skip ≠ 0
  | skip + 1, _ :: junk, frame => jumps skip junk frame
  | 0, b :: junk, frame => jumps (if magic <+: b :: junk ++ frame then 7 else 0) junk frame

/-- The positions that are not tried are skipped. -/
theorem jumps_drop {skip : Nat} {junk frame : List UInt8} (h : skip ≤ junk.length) :
    jumps skip junk frame = jumps 0 (junk.drop skip) frame := by
  induction skip generalizing junk with
  | zero => rfl
  | succ skip ih =>
    cases junk with
    | nil => cases h
    | cons b junk => exact ih (Nat.le_of_succ_le_succ h)

/-- A frame that starts among the positions that are not tried is lost. -/
theorem jumps_short {skip : Nat} {junk frame : List UInt8} (h : junk.length < skip) :
    jumps skip junk frame = true := by
  induction junk generalizing skip with
  | nil =>
    cases skip with
    | zero => cases h
    | succ skip => simp [jumps]
  | cons b junk ih =>
    cases skip with
    | zero => cases h
    | succ skip => exact ih (Nat.lt_of_succ_lt_succ h)

/-- A position without a magic. -/
theorem jumps_scan {b : UInt8} {junk frame : List UInt8} (h : ¬ magic <+: b :: (junk ++ frame)) :
    jumps 0 (b :: junk) frame = jumps 0 junk frame := by
  rw [jumps, List.cons_append, if_neg h]

/-- A magic and the seven positions behind it. -/
theorem jumps_magic {four : List UInt8} (h : four.length = 4) (junk frame : List UInt8) :
    jumps 0 (magic ++ (four ++ junk)) frame = jumps 0 junk frame := by
  have hfront : magic <+: magic ++ (four ++ junk) ++ frame := by
    rw [List.append_assoc]
    exact List.prefix_append _ _
  change jumps (if magic <+: magic ++ (four ++ junk) ++ frame then 7 else 0)
    ([0xAA, 0x55, 0xAA] ++ (four ++ junk)) frame = _
  rw [if_pos hfront, jumps_drop]
  · change jumps 0 ((four ++ junk).drop 4) frame = _
    rw [List.drop_append_of_le_length (Nat.le_of_eq h.symm), ← h, List.drop_length, List.nil_append]
  · simp only [List.length_append, List.length_cons, List.length_nil]
    omega

/-- The rest of the junk begins no false frame either. -/
theorem NoFalseFrame.drop {junk frame : List UInt8} (h : NoFalseFrame junk frame) {n : Nat}
    (hn : n ≤ junk.length) : NoFalseFrame (junk.drop n) frame := by
  intro i hi hmagic
  rw [List.length_drop] at hi
  rw [← List.drop_append_of_le_length hn] at hmagic ⊢
  rw [List.drop_drop] at hmagic
  have hi' := h (n + i) (by omega) hmagic
  rw [List.getD_eq_getElem?_getD, List.getElem?_drop, ← Nat.add_assoc, ← List.getD_eq_getElem?_getD]
  exact hi'

/-! ## What is read -/

/-- Two readers one after the other returned, so both did. -/
theorem bind_ok {ε σ α β : Type} {m : EStateM ε σ α} {f : α → EStateM ε σ β} {s s' : σ} {b : β}
    (h : (m >>= f) s = .ok b s') : ∃ a t, m s = .ok a t ∧ f a t = .ok b s' := by
  change EStateM.bind m f s = _ at h
  unfold EStateM.bind at h
  split at h
  next a t hm => exact ⟨a, t, hm, h⟩
  next => cases h

/-- What the read loop returns are the next bytes of the line. -/
theorem readLoop_ok {ε : Type} {silent : ε} {turns want : Nat} {buf ys : List UInt8} {rx rx' : Rx}
    (hwant : want ≤ turns) (h : readLoop silent turns want buf rx = .ok ys rx') :
    ∃ xs, xs.length = want ∧ ys = buf ++ xs ∧ rx.bytes = xs ++ rx'.bytes := by
  induction turns generalizing want buf rx with
  | zero =>
    obtain rfl : want = 0 := Nat.le_zero.mp hwant
    cases h
    exact ⟨[], rfl, (List.append_nil _).symm, rfl⟩
  | succ turns ih =>
    rw [readLoop] at h
    split at h
    next hzero =>
      cases h
      exact ⟨[], hzero.symm, (List.append_nil _).symm, rfl⟩
    next hpos =>
      change (if rx.bytes = [] then (throw silent : EStateM ε Rx _) else _) rx = _ at h
      split at h
      next => cases h
      next hbytes =>
        change readLoop silent turns (want - (rx.read want).1.length) (buf ++ (rx.read want).1)
          (rx.read want).2 = _ at h
        have hne := List.length_pos_iff.mpr hbytes
        have hlen : (rx.read want).1.length = min (min want (max 1 (rx.bursts.headD 1)))
          rx.bytes.length :=
          List.length_take
        have hall : (rx.read want).1 ++ (rx.read want).2.bytes = rx.bytes :=
          List.take_append_drop _ _
        obtain ⟨xs, hxs, rfl, hrest⟩ := ih (by omega) h
        refine ⟨(rx.read want).1 ++ xs, ?_, List.append_assoc _ _ _, ?_⟩
        · rw [List.length_append]
          omega
        · rw [← hall, hrest, List.append_assoc]

namespace Board

/-- What `read_bytes_timeout` returns are the next bytes of the line. -/
theorem readBytes_ok {n gap : Nat} {ys : List UInt8} {rx rx' : Rx}
    (h : readBytesTimeout n gap rx = .ok ys rx') : ys.length = n ∧ rx.bytes = ys ++ rx'.bytes := by
  obtain ⟨xs, hlen, rfl, hrest⟩ := readLoop_ok (Nat.le_refl n) h
  exact ⟨hlen, hrest⟩

/-! ## The ring -/

/-- The ring has four places. -/
structure Ring.Valid (r : Ring) : Prop where
  length : r.sync.length = 4
  si : r.si < 4

private theorem Ring.push_valid {r : Ring} (h : r.Valid) (ch : UInt8) : (r.push ch).Valid := by
  refine ⟨?_, ?_⟩
  · rw [Ring.push, List.length_set]
    exact h.length
  · exact Nat.lt_of_le_of_lt Nat.and_le_right (by decide)

/-- The oldest byte leaves the window. -/
theorem Ring.window_push {r : Ring} (h : r.Valid) (ch : UInt8) :
    (r.push ch).window = r.window.drop 1 ++ [ch] := by
  obtain ⟨sync, si⟩ := r
  obtain ⟨hlen, hsi⟩ := h
  obtain ⟨a, b, c, d, rfl⟩ := List.length_eq_four.mp hlen
  have hcases : si = 0 ∨ si = 1 ∨ si = 2 ∨ si = 3 := by
    dsimp only at hsi
    omega
  rcases hcases with rfl | rfl | rfl | rfl
  all_goals simp [Ring.window, Ring.push, List.range_succ]

private theorem Ring.length_window (r : Ring) : r.window.length = 4 := by
  rw [Ring.window, List.length_map, List.length_range]

/-- The window of a ring filled with the end of a header. -/
theorem Ring.window_header {hdr : List UInt8} (h : hdr.length = 7) :
    (⟨hdr.drop 3, 0⟩ : Ring).Valid ∧ (⟨hdr.drop 3, 0⟩ : Ring).window = hdr.drop 3 := by
  have hlen : (hdr.drop 3).length = 4 := by
    rw [List.length_drop]
    omega
  refine ⟨⟨hlen, Nat.zero_lt_succ 3⟩, ?_⟩
  obtain ⟨a, b, c, d, hsync⟩ := List.length_eq_four.mp hlen
  rw [hsync]
  simp [Ring.window, List.range_succ]

/-! ## The scan -/

/-- Four bytes at the front of some bytes are the magic if these start with it. -/
theorem magic_prefix {w ys bytes : List UInt8} (hlen : w.length = 4) (h : w ++ ys = bytes) :
    magic <+: bytes ↔ w = magic := by
  subst h
  constructor
  · intro hfront
    rw [List.isPrefix_append_of_length (by rw [hlen]; decide)] at hfront
    exact (hfront.eq_of_length hlen.symm).symm
  · rintro rfl
    exact List.prefix_append _ _

/-- The byte of the type, in the header and behind the magic. -/
theorem getD_type (hdr rest : List UInt8) (hlen : hdr.length = 7) :
    (magic ++ (hdr ++ rest)).getD 8 0 = hdr.getD 4 0 := by
  have h : 4 < hdr.length := by omega
  rw [List.getD_eq_getElem?_getD, List.getD_eq_getElem?_getD]
  change ((hdr ++ rest)[4]?).getD 0 = _
  rw [List.getElem?_append_left h]

/-- A turn of the scan in which the window is not the magic. -/
theorem reads_scan {stall turns : Nat} {ring : Ring} {ch : UInt8} {ys hdr : List UInt8}
    (hne : (ring.push ch).window ≠ magic) (h : Reads (syncLoop stall turns (ring.push ch)) ys hdr) :
    Reads (syncLoop stall (turns + 1) ring) (ch :: ys) hdr := by
  have hone : Reads (readBytesTimeout 1 stall) [ch] [ch] := reads_bytes stall [ch]
  have hhead : (ring.push ([ch].headD 0)).window ≠ magic := hne
  refine hone.bind ?_
  rw [if_pos hhead]
  exact h

/-- A turn of the scan at the magic. -/
theorem reads_magic {stall turns : Nat} {ring : Ring} {ch : UInt8} {hdr ys : List UInt8}
    {out : List UInt8} (hmagic : (ring.push ch).window = magic) (hlen : hdr.length = 7)
    (h : Reads (if knownType (hdr.getD 4 0) then pure hdr
      else syncLoop stall turns ⟨hdr.drop 3, 0⟩) ys out) :
    Reads (syncLoop stall (turns + 1) ring) (ch :: (hdr ++ ys)) out := by
  have hone : Reads (readBytesTimeout 1 stall) [ch] [ch] := reads_bytes stall [ch]
  have hread : Reads (readBytesTimeout 7 stall) hdr hdr := hlen ▸ reads_bytes stall hdr
  have hhead : ¬ (ring.push ([ch].headD 0)).window ≠ magic := fun hne ↦ hne hmagic
  refine hone.bind ?_
  rw [if_neg hhead]
  exact hread.bind h

/-- Behind a false magic at the front of the junk, the bytes of the header and of the rest of the
line go on with the junk that is left. -/
theorem skip_header {b : UInt8} {junk frame ys : List UInt8} (h : magic ++ ys = b :: junk ++ frame)
    (hseven : 7 ≤ junk.length) (hframe : 4 ≤ frame.length) :
    7 ≤ ys.length ∧ (ys.take 7).drop 4 ++ ys.drop 7 = junk.drop 7 ++ frame := by
  have hlen := congrArg List.length h
  have hmagic : magic.length = 4 := rfl
  simp only [List.length_append, List.length_cons, hmagic] at hlen
  have hys : 7 ≤ ys.length := by omega
  refine ⟨hys, ?_⟩
  have htake : (ys.take 7).length = 7 := List.length_take_of_le hys
  rw [← List.drop_append_of_le_length (by rw [htake]; decide), List.take_append_drop,
    ← List.drop_append_of_le_length hseven]
  exact congrArg (List.drop 8) h

/-- The scan finds the header of the frame behind the junk. -/
theorem reads_sync (stall : Nat) {hdr tail : List UInt8} (hhdr : hdr.length = 7)
    (hknown : knownType (hdr.getD 4 0) = true) {turns : Nat} {ring : Ring} {xs junk : List UInt8}
    (hring : ring.Valid) (hbytes : ring.window.drop 1 ++ xs = junk ++ (magic ++ hdr))
    (hjunk : NoFalseFrame junk (magic ++ hdr ++ tail))
    (hjumps : jumps 0 junk (magic ++ hdr ++ tail) = false) (hturns : junk.length < turns) :
    Reads (syncLoop stall turns ring) xs hdr := by
  induction turns generalizing ring xs junk with
  | zero => cases hturns
  | succ turns ih =>
    cases xs with
    | nil =>
      have hlen := congrArg List.length hbytes
      have := ring.length_window
      simp only [List.length_append, List.length_drop, List.length_nil] at hlen
      omega
    | cons ch ys =>
      have hvalid := Ring.push_valid hring ch
      have hwindow : (ring.push ch).window ++ ys = junk ++ (magic ++ hdr) := by
        rw [Ring.window_push hring, List.append_assoc]
        exact hbytes
      have hlen := (ring.push ch).length_window
      cases junk with
      | nil =>
        obtain ⟨hmagic, rfl⟩ := List.append_inj (hwindow.trans (List.nil_append _)) hlen
        have hdone : Reads (if knownType (ys.getD 4 0) then pure ys
            else syncLoop stall turns ⟨ys.drop 3, 0⟩) [] ys := by
          rw [if_pos hknown]
          exact .pure ys
        have hread := reads_magic hmagic hhdr hdone
        rwa [List.append_nil] at hread
      | cons b junk =>
        have hall : (ring.push ch).window ++ (ys ++ tail) =
            b :: junk ++ (magic ++ hdr ++ tail) := by
          rw [← List.append_assoc, hwindow, List.append_assoc]
        have hfront := magic_prefix hlen hall
        by_cases hmagic : (ring.push ch).window = magic
        · rw [jumps, if_pos (hfront.mpr hmagic)] at hjumps
          -- the frame is not among the seven positions that are not tried
          have hseven : 7 ≤ junk.length := by
            by_contra hlt
            rw [jumps_short (Nat.lt_of_not_le hlt)] at hjumps
            cases hjumps
          rw [jumps_drop hseven] at hjumps
          have hframe : 4 ≤ (magic ++ hdr).length := by
            rw [List.length_append]
            exact Nat.le_add_right 4 _
          obtain ⟨hys, hskip⟩ := skip_header (hmagic ▸ hwindow) hseven hframe
          have htake : (ys.take 7).length = 7 := List.length_take_of_le hys
          have hunknown : knownType ((ys.take 7).getD 4 0) = false := by
            rw [← getD_type _ (ys.drop 7 ++ tail) htake, ← List.append_assoc (ys.take 7),
              List.take_append_drop, ← hmagic, hall]
            exact hjunk 0 (Nat.zero_lt_succ _) (hfront.mpr hmagic)
          have hrest : (⟨(ys.take 7).drop 3, 0⟩ : Ring).window.drop 1 ++ ys.drop 7 =
              junk.drop 7 ++ (magic ++ hdr) := by
            rw [(Ring.window_header htake).2, List.drop_drop]
            exact hskip
          have hturns' : (junk.drop 7).length < turns := by
            rw [List.length_drop]
            rw [List.length_cons] at hturns
            omega
          have hread := ih (Ring.window_header htake).1 hrest (hjunk.drop (Nat.succ_le_succ hseven))
            hjumps hturns'
          rw [← List.take_append_drop 7 ys]
          refine reads_magic hmagic htake ?_
          rw [hunknown, if_neg Bool.false_ne_true]
          exact hread
        · rw [jumps_scan fun h ↦ hmagic (hfront.mp h)] at hjumps
          refine reads_scan hmagic (ih hvalid ?_ (hjunk.drop (Nat.le_add_left 1 _)) hjumps
            (Nat.lt_of_succ_lt_succ hturns))
          have hdrop := congrArg (List.drop 1) hwindow
          rw [List.drop_append_of_le_length (by omega)] at hdrop
          exact hdrop

/-- The header that the scan returns is one that it has not jumped over. -/
theorem sync_ok {stall turns : Nat} {ring : Ring} {hdr : List UInt8} {rx rx' : Rx}
    (hring : ring.Valid) (h : syncLoop stall turns ring rx = .ok hdr rx') :
    ∃ junk, ring.window.drop 1 ++ rx.bytes = junk ++ (magic ++ hdr ++ rx'.bytes) ∧
      hdr.length = 7 ∧ knownType (hdr.getD 4 0) = true ∧
      jumps 0 junk (magic ++ hdr ++ rx'.bytes) = false := by
  induction turns generalizing ring rx with
  | zero => cases h
  | succ turns ih =>
    obtain ⟨ch, rx1, hch, h⟩ := bind_ok h
    obtain ⟨hone, hbytes⟩ := readBytes_ok hch
    obtain ⟨c, rfl⟩ := List.length_eq_one_iff.mp hone
    have hwindow : (ring.push c).window ++ rx1.bytes = ring.window.drop 1 ++ rx.bytes := by
      rw [Ring.window_push hring, hbytes, List.append_assoc]
    have hvalid := Ring.push_valid hring c
    have hlen := (ring.push c).length_window
    rw [← hwindow]
    by_cases hmagic : (ring.push c).window = magic
    · have hhead : ¬ (ring.push ([c].headD 0)).window ≠ magic := fun hne ↦ hne hmagic
      rw [if_neg hhead] at h
      obtain ⟨hdr1, rx2, hhdr, h⟩ := bind_ok h
      obtain ⟨hseven, hrest⟩ := readBytes_ok hhdr
      by_cases hknown : knownType (hdr1.getD 4 0) = true
      · rw [if_pos hknown] at h
        cases h
        refine ⟨[], ?_, hseven, hknown, rfl⟩
        rw [hmagic, hrest, List.append_assoc]
        rfl
      · rw [if_neg hknown] at h
        obtain ⟨junk, hjunk, hlast⟩ := ih (Ring.window_header hseven).1 h
        rw [(Ring.window_header hseven).2, List.drop_drop] at hjunk
        refine ⟨magic ++ (hdr1.take 4 ++ junk), ?_, hlast.1, hlast.2.1, ?_⟩
        · rw [hmagic, hrest, List.append_assoc magic (hdr1.take 4 ++ junk), List.append_assoc,
            ← hjunk, ← List.append_assoc (hdr1.take 4), List.take_append_drop]
        · rw [jumps_magic (List.length_take_of_le (by omega))]
          exact hlast.2.2
    · have hhead : (ring.push ([c].headD 0)).window ≠ magic := hmagic
      rw [if_pos hhead] at h
      obtain ⟨junk, hjunk, hlast⟩ := ih hvalid h
      obtain ⟨w, ws, hw⟩ := List.exists_cons_of_length_eq_add_one hlen
      rw [hw] at hjunk hmagic
      refine ⟨w :: junk, ?_, hlast.1, hlast.2.1, ?_⟩
      · rw [hw]
        exact congrArg (List.cons w) hjunk
      · have hfront := magic_prefix (hw ▸ hlen) (congrArg (List.cons w) hjunk)
        rw [jumps_scan fun hp ↦ hmagic (hfront.mp hp)]
        exact hlast.2.2

/-- Before the first byte the ring holds zeros. -/
def Ring.zero : Ring := ⟨[0, 0, 0, 0], 0⟩

private theorem Ring.zero_valid : Ring.zero.Valid := ⟨rfl, Nat.zero_lt_succ 3⟩

private theorem Ring.zero_window : Ring.zero.window.drop 1 = [0, 0, 0] := by
  decide

/-- No magic begins with a zero. -/
theorem not_magic_zero (bytes : List UInt8) : ¬ magic <+: 0 :: bytes := by
  rw [magic, List.cons_prefix_cons]
  rintro ⟨h, -⟩
  exact absurd h (by decide)

/-- The zeros of the ring change nothing. -/
theorem jumps_zeros (junk frame : List UInt8) :
    jumps 0 ([0, 0, 0] ++ junk) frame = jumps 0 junk frame := by
  change jumps 0 (0 :: 0 :: 0 :: junk) frame = _
  rw [jumps_scan (not_magic_zero _), jumps_scan (not_magic_zero _), jumps_scan (not_magic_zero _)]

private theorem noFalseFrame_zeros {junk frame : List UInt8} (h : NoFalseFrame junk frame) :
    NoFalseFrame ([0, 0, 0] ++ junk) frame := by
  intro i hi hmagic
  rcases i with _ | _ | _ | i
  · exact absurd hmagic (not_magic_zero _)
  · exact absurd hmagic (not_magic_zero _)
  · exact absurd hmagic (not_magic_zero _)
  · exact h i (Nat.lt_of_add_lt_add_right hi) hmagic

/-- The end of `recv_msg`: four bytes are read, and the payload is returned. -/
theorem recvCrc_ok {stall seq : Nat} {type : UInt8} {hdr got payload : List UInt8} {rx rx' : Rx}
    (h : (readBytesTimeout 4 stall >>= fun crcRaw ↦
      if (frameCrc hdr got).toNat ≠ get32le crcRaw then (throw .crc : EStateM RecvErr Rx _)
      else pure (get32le hdr, hdr.getD 4 0, got)) rx = .ok (seq, type, payload) rx') :
    got = payload ∧ 4 ≤ rx.bytes.length := by
  obtain ⟨crcRaw, rx1, hcrc, h⟩ := bind_ok h
  obtain ⟨hfour, hbytes⟩ := readBytes_ok hcrc
  split at h
  next => cases h
  next =>
    cases h
    refine ⟨rfl, ?_⟩
    rw [hbytes, List.length_append]
    omega

/-- Behind the header that the scan finds are the payload and four bytes. -/
theorem recvMsg_ok {stall seq : Nat} {type : UInt8} {payload : List UInt8} {rx rx' : Rx}
    (h : recvMsg stall rx = .ok (seq, type, payload) rx') :
    ∃ hdr rx1, syncLoop stall (rx.bytes.length + 1) Ring.zero rx = .ok hdr rx1 ∧
      payload.length + 4 ≤ rx1.bytes.length := by
  obtain ⟨rx0, _, hget, h⟩ := bind_ok h
  cases hget
  obtain ⟨hdr, rx1, hsync, h⟩ := bind_ok h
  refine ⟨hdr, rx1, hsync, ?_⟩
  dsimp only at h
  split at h
  next => cases h
  next =>
    split at h
    next =>
      obtain ⟨got, rx2, hgot, h⟩ := bind_ok h
      obtain ⟨rfl, hfour⟩ := recvCrc_ok h
      rw [(readBytes_ok hgot).2, List.length_append]
      omega
    next =>
      obtain ⟨got, rx2, hgot, h⟩ := bind_ok h
      cases hgot
      obtain ⟨rfl, hfour⟩ := recvCrc_ok h
      rw [List.length_nil]
      omega

end Board

/-- A frame is a header between the magic and the rest. -/
theorem Board.sendMsg_split (seq : Nat) (type : UInt8) (payload : List UInt8) :
    Board.sendMsg seq type payload = magic ++ Board.header seq type payload.length ++ (payload ++
      Board.put32le (Board.frameCrc (Board.header seq type payload.length) payload).toNat) :=
  List.append_assoc _ _ _

/-- A header of a known type behind the magic does not begin in the junk. -/
theorem NoFalseFrame.length_le {junk junk' frame hdr rest : List UInt8}
    (h : NoFalseFrame junk frame) (hbytes : junk ++ frame = junk' ++ (magic ++ hdr ++ rest))
    (hlen : hdr.length = 7) (hknown : Board.knownType (hdr.getD 4 0) = true) :
    junk.length ≤ junk'.length := by
  by_contra hlt
  have hmagic : magic <+: (junk ++ frame).drop junk'.length := by
    rw [hbytes, List.drop_left, List.append_assoc]
    exact List.prefix_append _ _
  have htype : (junk ++ frame).getD (junk'.length + 8) 0 = hdr.getD 4 0 := by
    rw [hbytes, List.getD_eq_getElem?_getD, List.getElem?_append_right (Nat.le_add_right _ _),
      Nat.add_sub_cancel_left, ← List.getD_eq_getElem?_getD, List.append_assoc,
      Board.getD_type _ _ hlen]
  have hunknown := h junk'.length (Nat.lt_of_not_le hlt) hmagic
  rw [htype, hknown] at hunknown
  cases hunknown

/-- The scan does not jump over the frame, so the frame is returned. -/
theorem Board.reads_resync (stall seq : Nat) (type : Pkt) (payload junk : List UInt8)
    (hseq : seq < 2 ^ 32) (hlen : payload.length ≤ 512)
    (hjunk : NoFalseFrame junk (Board.sendMsg seq type.code payload))
    (hjumps : jumps 0 junk (Board.sendMsg seq type.code payload) = false) :
    Reads (Board.recvMsg stall) (junk ++ Board.sendMsg seq type.code payload)
      (seq, type.code, payload) := by
  rw [Board.sendMsg_split] at hjunk hjumps ⊢
  rw [← List.append_assoc junk, ← List.append_assoc junk]
  refine Board.reads_synced stall seq type.code payload (junk ++ magic) (fun turns hturns ↦ ?_)
    hseq hlen
  have hmagic : magic.length = 4 := rfl
  rw [List.length_append, hmagic] at hturns
  have hknown : Board.knownType ((Board.header seq type.code payload.length).getD 4 0) = true :=
    type.knownType_code
  refine Board.reads_sync stall rfl hknown Board.Ring.zero_valid ?_
    (Board.noFalseFrame_zeros hjunk) ((Board.jumps_zeros junk _).trans hjumps) ?_
  · change Board.Ring.zero.window.drop 1 ++ _ = _
    rw [Board.Ring.zero_window, List.append_assoc junk, List.append_assoc [0, 0, 0]]
  · rw [List.length_append]
    exact Nat.lt_of_le_of_lt (Nat.le_of_eq (Nat.add_comm _ _)) (Nat.lt_of_succ_lt hturns)

/-- The frame is returned, so the scan has not jumped over it. -/
theorem Board.jumps_of_recvMsg {stall seq : Nat} {type : UInt8} {payload junk : List UInt8}
    {bursts : List Nat} {rx' : Rx} (hjunk : NoFalseFrame junk (Board.sendMsg seq type payload))
    (h : Board.recvMsg stall ⟨junk ++ Board.sendMsg seq type payload, bursts⟩ =
      .ok (seq, type, payload) rx') : jumps 0 junk (Board.sendMsg seq type payload) = false := by
  obtain ⟨hdr, rx1, hsync, hrest⟩ := Board.recvMsg_ok h
  obtain ⟨junk', hbytes, hhdr, hknown, hjumps⟩ := Board.sync_ok Board.Ring.zero_valid hsync
  rw [Board.Ring.zero_window, ← List.append_assoc] at hbytes
  have hle := (Board.noFalseFrame_zeros hjunk).length_le hbytes hhdr hknown
  -- a later frame would have a shorter payload
  have hlen : ([0, 0, 0] ++ junk).length = junk'.length := by
    have htotal := congrArg List.length hbytes
    have hmagic : magic.length = 4 := rfl
    have hframe := Board.length_sendMsg seq type payload
    simp only [List.length_append] at *
    omega
  obtain ⟨rfl, hframe⟩ := List.append_inj hbytes hlen
  rwa [← hframe, Board.jumps_zeros] at hjumps

/-- `recv_msg` returns the frame behind the junk if and only if the scan does not jump over its
start from a false magic. -/
theorem resync_returns_frame (stall seq : Nat) (type : Pkt) (payload junk : List UInt8)
    (bursts : List Nat) (hseq : seq < 2 ^ 32) (hlen : payload.length ≤ 512)
    (hjunk : NoFalseFrame junk (Board.sendMsg seq type.code payload)) :
    (∃ rx', Board.recvMsg stall ⟨junk ++ Board.sendMsg seq type.code payload, bursts⟩ =
      .ok (seq, type.code, payload) rx') ↔
      jumps 0 junk (Board.sendMsg seq type.code payload) = false := by
  constructor
  · rintro ⟨rx', h⟩
    exact Board.jumps_of_recvMsg hjunk h
  · intro hjumps
    obtain ⟨bursts', h⟩ := Board.reads_resync stall seq type payload junk hseq hlen hjunk hjumps []
      bursts
    rw [List.append_nil] at h
    exact ⟨_, h⟩

/-- A false magic, and the seven bytes behind it. -/
def falseMagic : List UInt8 := magic ++ [0, 0, 0, 0, 0, 0, 0]

/-- Behind a false magic the `ACK` with number 7 is read. -/
theorem resync_returns_frame_ack : ∃ rx',
    Board.recvMsg 30 ⟨falseMagic ++ Board.sendMsg 7 Pkt.ack.code [], []⟩ =
      .ok (7, Pkt.ack.code, []) rx' := by
  have hjunk : NoFalseFrame falseMagic (Board.sendMsg 7 Pkt.ack.code []) := by
    unfold NoFalseFrame
    decide +kernel
  exact (resync_returns_frame 30 7 .ack [] falseMagic [] (by decide) (by decide) hjunk).mpr
    (by decide +kernel)

/-- Half a magic in front of a frame: the frame is not returned. -/
theorem half_magic_loses_frame :
    NoFalseFrame [0x55, 0xAA] (Board.sendMsg 7 Pkt.ack.code []) ∧
      ¬ ∃ rx', Board.recvMsg 30 ⟨[0x55, 0xAA] ++ Board.sendMsg 7 Pkt.ack.code [], []⟩ =
        .ok (7, Pkt.ack.code, []) rx' := by
  have hjunk : NoFalseFrame [0x55, 0xAA] (Board.sendMsg 7 Pkt.ack.code []) := by
    unfold NoFalseFrame
    decide +kernel
  refine ⟨hjunk, ?_⟩
  rintro ⟨rx', h⟩
  have hjumps := Board.jumps_of_recvMsg hjunk h
  revert hjumps
  decide +kernel

end Xv6K210.Burn
