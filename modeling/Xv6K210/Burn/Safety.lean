import Xv6K210.Burn.Transfer

/-!
# The sectors reach the card in order

Whatever the channels lose or spoil, whenever a program gives up waiting and whichever card
writes fail: the card holds the first sectors of the image, each written once and in order,
and the host is never more than one sector behind the board. The invariant speaks about the
frames in flight: a DATA frame is never ahead of the host, an ACK never ahead of the board.
-/

namespace Xv6K210.Burn

open Base

/-! ## The image in sectors -/

/-- The image, filled up with zeros to whole sectors. -/
def Image.padded (image : Image) : List UInt8 :=
  image.bytes ++ List.replicate (image.nsectors * 512 - image.bytes.length) 0

/-- A sector of the padded image. -/
def Image.sector (image : Image) (k : Nat) : List UInt8 := (image.padded.drop (k * 512)).take 512

/-- The host sends the sectors of the padded image. -/
theorem Image.chunk_eq (image : Image) (k : Nat) (h : k < image.nsectors) :
    image.chunk k = image.sector k := by
  have hn : k < (image.bytes.length + 511) / 512 := h
  have hlen : (image.nsectors * 512 - image.bytes.length) < 512 := by
    unfold Image.nsectors
    omega
  have hstart : k * 512 ≤ image.bytes.length := by omega
  unfold Image.chunk Image.sector Image.padded
  rw [List.drop_append_of_le_length hstart, List.take_append]
  set rest := image.bytes.drop (k * 512) with hrest
  have hrlen : rest.length = image.bytes.length - k * 512 := by rw [hrest, List.length_drop]
  by_cases hfull : rest.length < 512
  · have htake : rest.take 512 = rest := List.take_of_length_le (by omega)
    have hzeros : 512 - rest.length ≤ image.nsectors * 512 - image.bytes.length := by
      unfold Image.nsectors
      omega
    dsimp only
    rw [htake, if_pos hfull, List.take_replicate, Nat.min_eq_left hzeros]
  · have htake : (rest.take 512).length = 512 := by rw [List.length_take]; omega
    have hzero : 512 - rest.length = 0 := by omega
    dsimp only
    rw [htake, if_neg (Nat.lt_irrefl _), hzero, List.take_zero, List.append_nil]

/-! ## The invariant -/

/-- The host has left the sector loop with every sector acknowledged. -/
def Host.State.Left (s : Host.State) : Prop :=
  s.pc = .sendDone ∨ s.pc = .waitDone ∨ s.pc = .finished

/-- The sector loop is not left at a sector. -/
theorem Host.State.not_left {s : Host.State} (h : s.pc = .sendData ∨ s.pc = .waitData) :
    ¬ s.Left := by
  rintro (hl | hl | hl) <;> rcases h with h | h <;> rw [h] at hl <;> cases hl

/-- What holds of both programs and of the frames in flight. -/
structure System.Inv (image : Image) (s : System) : Prop where
  written : s.board.card.written = (List.range s.board.sec).map fun k ↦ (k, image.sector k)
  sectors : ∀ k < s.board.sec, s.board.card.sectors k = image.sector k
  position : s.board.card.sector = s.board.sec
  synced : s.board.pc ≠ .baud
  past : s.host.pc ≠ .sendBaud ∧ s.host.pc ≠ .waitBaud
  bound : s.host.sec ≤ image.nsectors
  inside : s.host.pc = .sendData ∨ s.host.pc = .waitData → s.host.sec < image.nsectors
  left : s.host.Left → s.host.sec = image.nsectors
  lower : s.host.sec ≤ s.board.sec
  upper : s.board.sec ≤ s.host.sec + 1
  total : s.board.sec ≤ image.nsectors
  data : ∀ f, .ok f ∈ s.toBoard → f.type = .data →
    f.seq ≤ s.host.sec ∧ f.seq < image.nsectors ∧ f.payload = image.sector f.seq
  done : ∀ f, .ok f ∈ s.toBoard → f.type = .done → s.host.Left
  ack : ∀ f, .ok f ∈ s.toHost → f.type = .ack → f.seq < s.board.sec ∨ s.host.Left

/-! ## What one reception can do -/

/-- The host repeats the sector, goes on to the next one after an ACK of its own sector, or
is done. -/
theorem Host.recv_cases {image : Image} {s t : Host.State} {m : Except Host.RecvErr Frame}
    (h : Host.recv image s m = some t) (hpast : s.pc ≠ .waitBaud) :
    (s.pc = .waitData ∧ t = s.again) ∨
    (s.pc = .waitData ∧ ∃ f, m = .ok f ∧ f.type = .ack ∧ f.seq = s.sec ∧
      t = Host.enter image (s.sec + 1)) ∨
    (s.pc = .waitDone ∧ t = { s with pc := .finished }) := by
  unfold Host.recv at h
  cases hpc : s.pc with
  | waitBaud => exact absurd hpc hpast
  | waitData =>
    rw [hpc] at h
    cases m with
    | error e => exact .inl ⟨rfl, (Option.some.inj h).symm⟩
    | ok f =>
      by_cases hseq : f.seq = s.sec
      · by_cases hack : f.type = .ack
        · simp only [hseq, hack, ne_eq, not_true, if_false, if_true, Option.some.injEq] at h
          exact .inr (.inl ⟨rfl, f, rfl, hack, hseq, h.symm⟩)
        · simp only [hseq, hack, ne_eq, not_true, if_false, Option.some.injEq] at h
          exact .inl ⟨rfl, h.symm⟩
      · simp only [hseq, ne_eq, not_false_eq_true, if_true, Option.some.injEq] at h
        exact .inl ⟨rfl, h.symm⟩
  | waitDone =>
    rw [hpc] at h
    exact .inr (.inr ⟨rfl, (Option.some.inj h).symm⟩)
  | sendBaud | sendData | sendDone | finished | died =>
    rw [hpc] at h
    cases h

private theorem Board.State.retry_pc (s : Board.State) : s.retry.pc ≠ .baud := by
  unfold Board.State.retry
  dsimp only
  split <;> exact fun h ↦ by cases h

private theorem Board.State.enter_pc (s : Board.State) (total sec : Nat) :
    (s.enter total sec).pc ≠ .baud := by
  unfold Board.State.enter
  dsimp only
  split <;> exact fun h ↦ by cases h

/-- The board keeps its sector and its card, and acknowledges what it has written or a DONE;
or it takes the DATA frame of its sector, and the card gets it. -/
theorem Board.recv_cases (total : Nat) (s : Board.State) (m : Except Board.RecvErr Frame)
    (ok : Bool) (ticks : Nat) (h : s.pc ≠ .baud) :
    ((Board.recv total s m ok ticks).1.sec = s.sec ∧
      (Board.recv total s m ok ticks).1.card = s.card ∧
      ∀ g, (Board.recv total s m ok ticks).2 = some g → g.type = .ack →
        g.seq < s.sec ∨ ∃ f, m = .ok f ∧ f.type = .done) ∨
    (∃ f, m = .ok f ∧ f.type = .data ∧ f.seq = s.sec ∧
      (Board.recv total s m ok ticks).1.sec = s.sec + 1 ∧
      (Board.recv total s m ok ticks).1.card =
        ⟨Function.update s.card.sectors s.card.sector f.payload, s.card.sector + 1,
          s.card.written ++ [(s.card.sector, f.payload)]⟩ ∧
      ∀ g, (Board.recv total s m ok ticks).2 = some g → g.seq = s.sec) := by
  have hnak : ∀ seq err, ∀ g, some (Board.sendNak seq err) = some g → g.type = .ack →
      g.seq < s.sec ∨ ∃ f, m = .ok f ∧ f.type = .done := fun seq err g hg hack ↦ by
    cases hg
    cases hack
  have hnone : ∀ g : Frame, none = some g → g.type = .ack →
      g.seq < s.sec ∨ ∃ f, m = .ok f ∧ f.type = .done := fun g hg ↦ by cases hg
  unfold Board.recv
  cases hpc : s.pc with
  | baud => exact absurd hpc h
  | data =>
    cases m with
    | error e => exact .inl ⟨rfl, rfl, hnak _ _⟩
    | ok f =>
      dsimp only
      by_cases hdup : f.type = .data ∧ f.payload.length = 512 ∧ f.seq < s.sec
      · rw [if_pos hdup]
        refine .inl ⟨rfl, rfl, fun g hg _ ↦ ?_⟩
        cases hg
        exact .inl hdup.2.2
      · rw [if_neg hdup]
        by_cases hbad : f.type ≠ .data ∨ f.seq ≠ s.sec ∨ f.payload.length ≠ 512
        · rw [if_pos hbad]
          exact .inl ⟨rfl, rfl, hnak _ _⟩
        · rw [if_neg hbad]
          push Not at hbad
          obtain ⟨htype, hseq, hlen⟩ := hbad
          cases ok with
          | false =>
            simp only [sdcarddevWrite, hlen, ne_eq, not_true, if_false, Bool.false_eq_true]
            exact .inl ⟨rfl, rfl, hnak _ _⟩
          | true =>
            simp only [sdcarddevWrite, hlen, ne_eq, not_true, if_false, if_true]
            refine .inr ⟨f, rfl, htype, hseq, rfl, rfl, fun g hg ↦ ?_⟩
            cases hg
            rfl
  | waitDone =>
    cases m with
    | error e => exact .inl ⟨rfl, rfl, hnone⟩
    | ok f =>
      dsimp only
      by_cases hdone : f.type = .done
      · rw [if_pos hdone]
        exact .inl ⟨rfl, rfl, fun g hg _ ↦ .inr ⟨f, rfl, hdone⟩⟩
      · rw [if_neg hdone]
        exact .inl ⟨rfl, rfl, hnone⟩
  | success | failed => exact .inl ⟨rfl, rfl, hnone⟩

/-- Once past the BAUD exchange the board never returns to it. -/
theorem Board.recv_pc (total : Nat) (s : Board.State) (m : Except Board.RecvErr Frame)
    (ok : Bool) (ticks : Nat) (h : s.pc ≠ .baud) :
    (Board.recv total s m ok ticks).1.pc ≠ .baud := by
  unfold Board.recv
  cases hpc : s.pc with
  | baud => exact absurd hpc h
  | data =>
    cases m with
    | error e => exact Board.State.retry_pc _
    | ok f =>
      dsimp only
      split_ifs with hdup hbad
      · exact h
      · exact Board.State.retry_pc _
      · split
        · exact Board.State.retry_pc _
        · exact Board.State.enter_pc _ _ _
  | waitDone =>
    cases m with
    | error e => exact fun h ↦ by cases h
    | ok f =>
      dsimp only
      split_ifs with hdone
      · exact fun h ↦ by cases h
      · exact fun h ↦ by cases h
  | success | failed => exact h

/-! ## The steps keep the invariant -/

namespace System.Inv

variable {image : Image} {s : System}

/-- Frames may disappear from the channels. -/
theorem channels (hs : s.Inv image) {toBoard : List (Except Board.RecvErr Frame)}
    {toHost : List (Except Host.RecvErr Frame)}
    (hb : ∀ f, .ok f ∈ toBoard → .ok f ∈ s.toBoard)
    (hh : ∀ f, .ok f ∈ toHost → .ok f ∈ s.toHost) :
    System.Inv image { s with toBoard := toBoard, toHost := toHost } :=
  { hs with
    data := fun f hf ↦ hs.data f (hb f hf)
    done := fun f hf ↦ hs.done f (hb f hf)
    ack := fun f hf ↦ hs.ack f (hh f hf) }

/-- The host may move within its sector. -/
theorem host (hs : s.Inv image) {h : Host.State} (hsec : h.sec = s.host.sec)
    (hpast : h.pc ≠ .sendBaud ∧ h.pc ≠ .waitBaud)
    (hin : h.pc = .sendData ∨ h.pc = .waitData → s.host.sec < image.nsectors)
    (hleft : h.Left ↔ s.host.Left) : System.Inv image { s with host := h } :=
  { hs with
    past := hpast
    bound := hsec ▸ hs.bound
    inside := fun hpc ↦ hsec ▸ hin hpc
    left := fun hl ↦ hsec ▸ hs.left (hleft.mp hl)
    lower := hsec ▸ hs.lower
    upper := hsec ▸ hs.upper
    data := fun f hf htype ↦ hsec ▸ hs.data f hf htype
    done := fun f hf htype ↦ hleft.mpr (hs.done f hf htype)
    ack := fun f hf htype ↦ (hs.ack f hf htype).imp_right hleft.mpr }

/-- The host goes on to the next sector when the board has the present one. -/
theorem advance (hs : s.Inv image) (hpc : s.host.pc = .waitData)
    (hsec : s.host.sec < s.board.sec) :
    System.Inv image { s with host := Host.enter image (s.host.sec + 1) } := by
  have hnot : ¬ s.host.Left := Host.State.not_left (.inr hpc)
  have hin := hs.inside (.inr hpc)
  refine
    { hs with
      past := ?past
      bound := hin
      inside := ?inside
      left := ?left
      lower := hsec
      upper := Nat.le_succ_of_le hs.upper
      data := fun f hf htype ↦ ?data
      done := fun f hf htype ↦ absurd (hs.done f hf htype) hnot
      ack := fun f hf htype ↦ .inl ((hs.ack f hf htype).resolve_right hnot) }
  case past =>
    unfold Host.enter
    dsimp only
    split <;> exact ⟨nofun, nofun⟩
  case inside =>
    intro h
    by_cases hlt : s.host.sec + 1 < image.nsectors
    · exact hlt
    · simp only [Host.enter, if_neg hlt] at h
      rcases h with h | h <;> cases h
  case left =>
    intro h
    by_cases hlt : s.host.sec + 1 < image.nsectors
    · simp only [Host.State.Left, Host.enter, if_pos hlt] at h
      rcases h with h | h | h <;> cases h
    · exact Nat.le_antisymm hin (Nat.not_lt.mp hlt)
  case data =>
    have hd := hs.data f hf htype
    exact ⟨Nat.le_succ_of_le hd.1, hd.2⟩

/-- The host may send a sector it has reached, and DONE once it has left the loop. -/
theorem sends (hs : s.Inv image) (f : Frame)
    (hdata : f.type = .data →
      f.seq ≤ s.host.sec ∧ f.seq < image.nsectors ∧ f.payload = image.sector f.seq)
    (hdone : f.type = .done → s.host.Left) :
    System.Inv image { s with toBoard := s.toBoard ++ [Except.ok f] } := by
  have hsent : ∀ g : Frame,
      Except.ok g ∈ s.toBoard ++ [Except.ok f] → Except.ok g ∈ s.toBoard ∨ g = f :=
    fun g hg ↦ by
      rcases List.mem_append.mp hg with h | h
      · exact .inl h
      · exact .inr (Except.ok.inj (List.mem_singleton.mp h))
  refine { hs with data := fun g hg htype ↦ ?_, done := fun g hg htype ↦ ?_ }
  · rcases hsent g hg with h | rfl
    · exact hs.data g h htype
    · exact hdata htype
  · rcases hsent g hg with h | rfl
    · exact hs.done g h htype
    · exact hdone htype

/-- A reception of the host. -/
theorem hostTakes (hs : s.Inv image) {m : Except Host.RecvErr Frame} {h : Host.State}
    (hrecv : Host.recv image s.host m = some h)
    (hm : ∀ f, m = .ok f → f.type = .ack → f.seq < s.board.sec ∨ s.host.Left) :
    System.Inv image { s with host := h } := by
  rcases Host.recv_cases hrecv hs.past.2 with
    ⟨hpc, rfl⟩ | ⟨hpc, f, rfl, hack, hseq, rfl⟩ | ⟨hpc, rfl⟩
  · have hnot : ¬ s.host.Left := Host.State.not_left (.inr hpc)
    by_cases hlt : s.host.attempt < maxRetry
    · refine hs.host ?_ ?_ (fun _ ↦ hs.inside (.inr hpc)) ⟨fun h ↦ ?_, fun h ↦ absurd h hnot⟩
      · simp [Host.State.again, hlt]
      · simp [Host.State.again, hlt]
      · simp [Host.State.again, hlt, Host.State.Left] at h
    · refine hs.host ?_ ?_ (fun _ ↦ hs.inside (.inr hpc)) ⟨fun h ↦ ?_, fun h ↦ absurd h hnot⟩
      · simp [Host.State.again, hlt]
      · simp [Host.State.again, hlt]
      · simp [Host.State.again, hlt, Host.State.Left] at h
  · have hnot : ¬ s.host.Left := Host.State.not_left (.inr hpc)
    exact hs.advance hpc (hseq ▸ (hm f rfl hack).resolve_right hnot)
  · refine hs.host rfl ⟨nofun, nofun⟩ (fun h ↦ ?_)
      ⟨fun _ ↦ .inr (.inl hpc), fun _ ↦ .inr (.inr rfl)⟩
    rcases h with h | h <;> cases h

/-- A reception of the board. -/
theorem boardTakes (hs : s.Inv image) (m : Except Board.RecvErr Frame) (ok : Bool) (ticks : Nat)
    (hdata : ∀ f, m = .ok f → f.type = .data →
      f.seq ≤ s.host.sec ∧ f.seq < image.nsectors ∧ f.payload = image.sector f.seq)
    (hdone : ∀ f, m = .ok f → f.type = .done → s.host.Left) :
    (s.boardTakes image m ok ticks).Inv image := by
  have hsynced := Board.recv_pc (Board.nsectors image.bytes.length) s.board m ok ticks hs.synced
  have hcases := Board.recv_cases (Board.nsectors image.bytes.length) s.board m ok ticks hs.synced
  unfold System.boardTakes
  dsimp only
  generalize Board.recv (Board.nsectors image.bytes.length) s.board m ok ticks = r
    at hsynced hcases
  obtain ⟨b, reply⟩ := r
  dsimp only at hsynced hcases ⊢
  -- a frame on the way to the host was there before or is the reply
  have hsent : ∀ f : Frame, Except.ok f ∈ s.toHost ++ reply.toList.map Except.ok →
      Except.ok f ∈ s.toHost ∨ reply = some f := fun f hf ↦ by
    rcases List.mem_append.mp hf with h | h
    · exact .inl h
    · obtain ⟨g, hg, hfg⟩ := List.mem_map.mp h
      cases hfg
      exact .inr (Option.mem_toList.mp hg)
  rcases hcases with ⟨hsec, hcard, hreply⟩ | ⟨f, rfl, htype, hseq, hsec, hcard, hreply⟩
  · refine
      { hs with
        written := by rw [hcard, hsec]; exact hs.written
        sectors := by rw [hcard, hsec]; exact hs.sectors
        position := by rw [hcard, hsec]; exact hs.position
        synced := hsynced
        lower := by rw [hsec]; exact hs.lower
        upper := by rw [hsec]; exact hs.upper
        total := by rw [hsec]; exact hs.total
        ack := fun g hg hack ↦ ?_ }
    rw [hsec]
    rcases hsent g hg with h | h
    · exact hs.ack g h hack
    · exact (hreply g h hack).imp_right fun ⟨f, hf, hft⟩ ↦ hdone f hf hft
  · obtain ⟨hle, hlt, hpay⟩ := hdata f rfl htype
    rw [hseq] at hle hlt hpay
    refine
      { hs with
        written := ?written
        sectors := ?sectors
        position := ?position
        synced := hsynced
        lower := ?lower
        upper := ?upper
        total := ?total
        ack := fun g hg hack ↦ ?ack }
    case written =>
      rw [hcard, hsec, List.range_succ, List.map_append, ← hs.written, hs.position, hpay]
      rfl
    case sectors =>
      intro k hk
      rw [hsec] at hk
      rw [hcard, hs.position, hpay]
      dsimp only
      by_cases hks : k = s.board.sec
      · rw [hks, Function.update_self]
      · rw [Function.update_of_ne hks]
        exact hs.sectors k (by omega)
    case position => rw [hcard, hsec, hs.position]
    case lower =>
      rw [hsec]
      exact Nat.le_succ_of_le hs.lower
    case upper => rw [hsec]; exact Nat.succ_le_succ hle
    case total => rw [hsec]; exact hlt
    case ack =>
      rw [hsec]
      rcases hsent g hg with h | h
      · exact (hs.ack g h hack).imp_left Nat.lt_succ_of_lt
      · have hg := hreply g h
        exact .inl (by omega)

/-- Every step of the system keeps the invariant. -/
theorem step {t : System} {a : Act} {baud : Nat} (hs : s.Inv image)
    (h : System.Step image baud s a t) : t.Inv image := by
  have hself : ∀ {ε : Type} (l : List (Except ε Frame)), ∀ f, .ok f ∈ l → .ok f ∈ l :=
    fun _ _ hf ↦ hf
  unfold System.Step at h
  cases a with
  | hostSend =>
    obtain ⟨⟨f, h'⟩, hsend, rfl⟩ := Option.map_eq_some_iff.mp h
    have hpast := hs.past
    unfold Host.send at hsend
    cases hpc : s.host.pc with
    | sendBaud => exact absurd hpc hpast.1
    | sendData =>
      rw [hpc] at hsend
      cases hsend
      have hlt := hs.inside (.inl hpc)
      have hnot : ¬ s.host.Left := Host.State.not_left (.inl hpc)
      have hwait : System.Inv image { s with host := { s.host with pc := .waitData } } :=
        hs.host rfl ⟨nofun, nofun⟩ (fun _ ↦ hlt)
          ⟨fun h ↦ absurd h (Host.State.not_left (.inr rfl)), fun h ↦ absurd h hnot⟩
      exact hwait.sends _ (fun _ ↦ ⟨Nat.le_refl _, hlt, image.chunk_eq _ hlt⟩) nofun
    | sendDone =>
      rw [hpc] at hsend
      cases hsend
      have hwait : System.Inv image { s with host := { s.host with pc := .waitDone } } :=
        hs.host rfl ⟨nofun, nofun⟩ (fun h ↦ by rcases h with h | h <;> cases h)
          ⟨fun _ ↦ .inl hpc, fun _ ↦ .inr (.inl rfl)⟩
      exact hwait.sends _ nofun (fun _ ↦ .inr (.inl rfl))
    | waitBaud | waitData | waitDone | finished | died =>
      rw [hpc] at hsend
      cases hsend
  | hostRecv =>
    simp only [System.next] at h
    cases hc : s.toHost with
    | nil =>
      rw [hc] at h
      cases h
    | cons m rest =>
      rw [hc] at h
      obtain ⟨h', hrecv, rfl⟩ := Option.map_eq_some_iff.mp h
      have hmem : ∀ f, .ok f ∈ rest → .ok f ∈ s.toHost := fun f hf ↦ by
        rw [hc]
        exact List.mem_cons_of_mem _ hf
      have ht := (hs.channels (hself s.toBoard) hmem).hostTakes hrecv fun f hf hack ↦
        hs.ack f (by rw [hc, hf]; exact List.mem_cons_self) hack
      exact ht
  | hostError e =>
    obtain ⟨h', hrecv, rfl⟩ := Option.map_eq_some_iff.mp h
    exact hs.hostTakes hrecv fun f hf ↦ by cases hf
  | boardRecv ok ticks =>
    simp only [System.next] at h
    cases hc : s.toBoard with
    | nil =>
      rw [hc] at h
      cases h
    | cons m rest =>
      rw [hc, Option.some.injEq] at h
      subst h
      have hmem : ∀ f, .ok f ∈ rest → .ok f ∈ s.toBoard := fun f hf ↦ by
        rw [hc]
        exact List.mem_cons_of_mem _ hf
      have hhead : ∀ f, m = .ok f → .ok f ∈ s.toBoard := fun f hf ↦ by
        rw [hc, hf]
        exact List.mem_cons_self
      exact (hs.channels hmem (hself s.toHost)).boardTakes m ok ticks
        (fun f hf ↦ hs.data f (hhead f hf)) (fun f hf ↦ hs.done f (hhead f hf))
  | boardError e =>
    cases h
    exact hs.boardTakes _ _ _ (fun f hf ↦ by cases hf) (fun f hf ↦ by cases hf)
  | loseToBoard i =>
    cases h
    exact hs.channels (fun f hf ↦ List.mem_of_mem_eraseIdx hf) (hself s.toHost)
  | loseToHost i =>
    cases h
    exact hs.channels (hself s.toBoard) (fun f hf ↦ List.mem_of_mem_eraseIdx hf)
  | spoilToBoard i e =>
    cases h
    exact hs.channels (fun f hf ↦ (List.mem_or_eq_of_mem_set hf).resolve_right
      fun h ↦ by cases h) (hself s.toHost)
  | spoilToHost i e =>
    cases h
    exact hs.channels (hself s.toBoard) (fun f hf ↦ (List.mem_or_eq_of_mem_set hf).resolve_right
      fun h ↦ by cases h)

/-- The invariant holds when both programs enter their loops. -/
theorem start (image : Image) (sectors : Nat → List UInt8) :
    (System.start image sectors).Inv image where
  written := rfl
  sectors := fun k hk ↦ absurd hk (Nat.not_lt_zero k)
  position := rfl
  synced := Board.State.enter_pc _ _ _
  past := by
    simp only [System.start, Host.enter]
    split <;> exact ⟨nofun, nofun⟩
  bound := Nat.zero_le _
  inside := fun h ↦ by
    by_cases hlt : 0 < image.nsectors
    · exact hlt
    · simp only [System.start, Host.enter, if_neg hlt] at h
      rcases h with h | h <;> cases h
  left := fun h ↦ by
    by_cases hlt : 0 < image.nsectors
    · simp only [System.start, Host.enter, if_pos hlt] at h
      exact absurd h (Host.State.not_left (.inl rfl))
    · exact (Nat.eq_zero_of_not_pos hlt).symm
  lower := Nat.le_refl _
  upper := Nat.zero_le _
  total := Nat.zero_le _
  data := nofun
  done := nofun
  ack := nofun

end System.Inv

/-- The sectors are on the card in order, in every run of the transfer. When the board has
completed its sectors below `sec`, each of them was written once, in order, with the bytes of
the padded image, and they are on the card; the host is at the same sector or one behind; and
a host that has left the loop leaves the whole image on the card. -/
theorem transfer_safe (image : Image) (baud : Nat) (sectors : Nat → List UInt8)
    (acts : List Act) (s : System)
    (h : Runs (System.Step image baud) (System.start image sectors) acts s) :
    s.board.card.written = ((List.range s.board.sec).map fun k ↦ (k, image.sector k)) ∧
    (∀ k < s.board.sec, s.board.card.sectors k = image.sector k) ∧
    s.host.sec ≤ s.board.sec ∧ s.board.sec ≤ s.host.sec + 1 ∧
    (s.host.Left → ∀ k < image.nsectors, s.board.card.sectors k = image.sector k) := by
  have hs : s.Inv image := h.invariant (System.Inv image) (fun _ _ _ hs h ↦ hs.step h)
    (System.Inv.start image sectors)
  refine ⟨hs.written, hs.sectors, hs.lower, hs.upper, fun hleft k hk ↦ hs.sectors k ?_⟩
  calc k < image.nsectors := hk
    _ = s.host.sec := (hs.left hleft).symm
    _ ≤ s.board.sec := hs.lower

/-- An image of one byte. -/
def oneByte : Image := ⟨[1], by decide⟩

/-- The first DATA frame is lost, the board gives up waiting, and the second attempt brings
the image to the card. -/
theorem transfer_safe_lost : ∃ s : System, s.host.Left ∧
    s.board.card.written = ((List.range s.board.sec).map fun k ↦ (k, oneByte.sector k)) ∧
    ∀ k < oneByte.nsectors, s.board.card.sectors k = oneByte.sector k := by
  have hf : ∀ s a t, System.next oneByte 230400 s a = some t →
      System.Step oneByte 230400 s a t := fun _ _ _ h ↦ h
  obtain ⟨s, hrun, hpc⟩ := exists_runs hf (System.start oneByte fun _ ↦ [])
    [.hostSend, .loseToBoard 0, .boardError .truncated, .hostRecv, .hostSend,
      .boardRecv true 7, .hostRecv]
    (fun s ↦ decide (s.host.pc = .sendDone)) (by decide +kernel)
  have hleft : s.host.Left := .inl (of_decide_eq_true hpc)
  have hsafe := transfer_safe oneByte 230400 _ _ s hrun
  exact ⟨s, hleft, hsafe.1, hsafe.2.2.2.2 hleft⟩

end Xv6K210.Burn
