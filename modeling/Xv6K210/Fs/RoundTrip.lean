import Xv6K210.Fs.DirImage

/-!
# Encoding and decoding of directory entries

Source `kernel/fs/fat32.c:417–557,732–825` and `kernel/libc/string.c`. `emake`
cuts a name into groups of thirteen characters, stored in reverse order behind a generated
short name; `enext` puts them together again. The two agree on every accepted name, except
that a short name which starts with the byte `0xe5` reads as a deleted slot.
-/

namespace Xv6K210.Fs

open Xv6K210.Base

/-! ### Short names -/

private theorem shortLoop_spec (name : List UInt8) : ∀ (fuel pos : Nat) (p : Option Nat)
    (out : List UInt8), out.length ≤ charShortName →
    out <+: shortLoop name fuel pos p out ∧
      (shortLoop name fuel pos p out).length ≤ charShortName
  | 0, pos, p, out, h => ⟨List.prefix_rfl, h⟩
  | fuel + 1, pos, p, out, h => by
    rw [shortLoop]
    split
    · exact ⟨List.prefix_rfl, h⟩
    · next hlt =>
      simp only [charShortName] at h hlt
      have hone : ∀ c : UInt8, (out ++ [c]).length ≤ charShortName := by
        intro c
        simp only [List.length_append, List.length_singleton, charShortName]
        omega
      have hpad : (out ++ List.replicate (8 - out.length) spaceCh).length ≤ charShortName := by
        simp only [List.length_append, List.length_replicate, charShortName]
        omega
      have hgo : ∀ (pos : Nat) (p : Option Nat) (t : List UInt8),
          (out ++ t).length ≤ charShortName →
          out <+: shortLoop name fuel pos p (out ++ t) ∧
            (shortLoop name fuel pos p (out ++ t)).length ≤ charShortName := by
        intro pos p t ht
        have ih := shortLoop_spec name fuel pos p (out ++ t) ht
        exact ⟨(List.prefix_append out t).trans ih.1, ih.2⟩
      split
      · exact ⟨List.prefix_rfl, h⟩
      · split
        · split
          · exact ⟨List.prefix_rfl, h⟩
          · exact shortLoop_spec name fuel _ _ out h
        · split
          · exact shortLoop_spec name fuel _ _ out h
          · split
            · split
              · exact hgo _ _ _ hpad
              · exact shortLoop_spec name fuel _ _ out h
            · exact hgo _ _ _ (hone _)

/-- A short name has eleven characters. -/
theorem length_generateShortname (name : List UInt8) :
    (generateShortname name).length = charShortName := by
  have h := (shortLoop_spec name name.length 0 (some (lastDot name)) [] (by simp)).2
  simp only [generateShortname, List.length_append, List.length_replicate]
  omega

/-- The first character of a short name comes from the first character of the name, when
that is neither a space nor a dot. -/
theorem head_generateShortname {c : UInt8} (name : List UInt8) (hs : c ≠ spaceCh)
    (hd : c ≠ dotCh) : ∃ t, generateShortname (c :: name) = shortChar c :: t := by
  have hloop : shortLoop (c :: name) (c :: name).length 0 (some (lastDot (c :: name))) [] =
      shortLoop (c :: name) name.length 1 (some (lastDot (c :: name))) [shortChar c] := by
    rw [List.length_cons, shortLoop, if_neg (by simp)]
    simp only [List.getElem?_cons_zero, List.length_nil, if_neg hs, if_neg hd, List.nil_append]
    rw [if_neg (by simp)]
  obtain ⟨t, ht⟩ := (shortLoop_spec (c :: name) name.length 1
    (some (lastDot (c :: name))) [shortChar c] (by simp [charShortName])).1
  refine ⟨t ++ List.replicate (charShortName - (shortChar c :: t).length) spaceCh, ?_⟩
  simp only [generateShortname]
  rw [hloop, ← ht]
  rfl

/-- A character that is neither a letter, nor an underscore, nor replaced by one stands for
itself. -/
private theorem shortChar_eq_iff {x : UInt8} (hlow : ¬ (0x61 ≤ x ∧ x ≤ 0x7a))
    (hup : ¬ (0x41 ≤ x ∧ x ≤ 0x5a)) (hill : shortIllegal.contains x = false) (hx : x ≠ 0x5f)
    (c : UInt8) : shortChar c = x ↔ c = x := by
  constructor
  · intro h
    unfold shortChar at h
    split at h
    next hc =>
      rw [UInt8.le_iff_toNat_le, UInt8.le_iff_toNat_le] at hc
      have hsub : x.toNat = c.toNat - 0x20 := by
        rw [← h]
        exact UInt8.toNat_sub_of_le _ _ (UInt8.le_iff_toNat_le.mpr (by
          have := hc.1
          change 0x61 ≤ c.toNat at this
          change 0x20 ≤ c.toNat
          omega))
      refine absurd ?_ hup
      rw [UInt8.le_iff_toNat_le, UInt8.le_iff_toNat_le, hsub]
      change 0x41 ≤ c.toNat - 0x20 ∧ c.toNat - 0x20 ≤ 0x5a
      change 0x61 ≤ c.toNat ∧ c.toNat ≤ 0x7a at hc
      omega
    next =>
      split at h
      · exact absurd h.symm hx
      · exact h
  · rintro rfl
    rw [shortChar, if_neg hlow, hill, if_neg Bool.false_ne_true]

/-- Only the null character becomes one. -/
theorem shortChar_zero_iff (c : UInt8) : shortChar c = 0 ↔ c = 0 :=
  shortChar_eq_iff (by decide) (by decide) (by decide) (by decide) c

/-- Only the mark of a deleted slot becomes one. -/
theorem shortChar_empty_iff (c : UInt8) : shortChar c = emptyEntry ↔ c = emptyEntry :=
  shortChar_eq_iff (by decide) (by decide) (by decide) (by decide) c

/-! ### The slots of an entry -/

/-- The long-name slots of a name, the last `k` groups of them, as `emake` writes them. -/
def longSlots (name : List UInt8) (ck : UInt8) (entcnt : Nat) : Nat → List (List UInt8)
  | 0 => []
  | i + 1 => lne (orderByte entcnt (i + 1)) ck
      (lneChars charLongName (name.drop (i * charLongName))) :: longSlots name ck entcnt i

/-- All the slots that `emake` writes for an entry. -/
def entrySlots (ep : Dirent) : List (List UInt8) :=
  let shortname := generateShortname ep.filename
  longSlots ep.filename (calChecksum shortname) (longCount ep.filename) (longCount ep.filename) ++
    [sne shortname ep.attr ep.firstClus ep.fileSize]

private theorem emakeLong_putSlots (name : List UInt8) (ck : UInt8) (entcnt : Nat)
    (de : List UInt8) : ∀ (k : Nat) (v : Volume) (dp : Dirent) (off : Nat),
    (match emakeLong name ck entcnt k v dp off with
      | .error p => .error p
      | .ok (v, dp, off) => putSlot v dp off de) =
      putSlots v dp off (longSlots name ck entcnt k ++ [de])
  | 0, v, dp, off => by
    simp only [emakeLong, longSlots, List.nil_append, putSlots]
    cases putSlot v dp off de <;> rfl
  | k + 1, v, dp, off => by
    simp only [emakeLong, longSlots, List.cons_append, putSlots, orderByte]
    cases putSlot v dp off _ with
    | error p => rfl
    | ok r => exact emakeLong_putSlots name ck entcnt de k r.1 r.2 _

/-- `emake` of an ordinary entry writes the list of its slots. -/
theorem emake_eq_putSlots {v : Volume} {dp ep : Dirent} {off : Nat}
    (hdir : dp.attr &&& attrDirectory ≠ 0) (ha : off % 32 = 0) (hoff : 32 < off) :
    emake v dp ep off = putSlots v dp off (entrySlots ep) := by
  rw [emake, if_neg hdir, if_neg (by omega), if_neg (by omega)]
  exact emakeLong_putSlots _ _ _ _ _ _ _ _

/-- The name bytes of a long-name slot. -/
theorem length_lneChars : ∀ (n : Nat) (p : List UInt8), (lneChars n p).length = 2 * n
  | 0, p => by cases p <;> rfl
  | n + 1, c :: p => by
    simp only [lneChars, List.length_cons, length_lneChars n p]
    omega
  | n + 1, [] => by
    simp only [lneChars, List.length_cons, List.length_replicate]
    omega

/-- The units of a group: the characters, a zero unit, and `0xffff` behind it. -/
theorem getD_lneChars : ∀ (n t : Nat) (p : List UInt8), t < n →
    (lneChars n p).getD (2 * t) 0 =
        (if t < p.length then p.getD t 0 else if t = p.length then 0 else 0xff) ∧
      (lneChars n p).getD (2 * t + 1) 0 = if t ≤ p.length then 0 else 0xff
  | 0, t, p, h => absurd h (Nat.not_lt_zero t)
  | n + 1, 0, c :: p, _ => by simp [lneChars]
  | n + 1, 0, [], _ => by simp [lneChars]
  | n + 1, t + 1, c :: p, h => by
    have ih := getD_lneChars n t p (by omega)
    rw [show 2 * (t + 1) = 2 * t + 1 + 1 by omega]
    simp only [lneChars, List.getD_cons_succ, List.length_cons]
    rw [ih.1, ih.2]
    simp only [Nat.add_lt_add_iff_right, Nat.add_le_add_iff_right, Nat.add_right_cancel_iff,
      and_self]
  | n + 1, t + 1, [], h => by
    rw [show 2 * (t + 1) = 2 * t + 1 + 1 by omega]
    simp only [lneChars, List.getD_cons_succ, List.length_nil]
    constructor
    · rw [List.getD_eq_getElem?_getD, List.getElem?_replicate_of_lt (by omega)]
      simp
    · rw [List.getD_eq_getElem?_getD, List.getElem?_replicate_of_lt (by omega)]
      simp

private theorem lne_split {chars : List UInt8} (h : chars.length = 26) : ∃ a b c,
    chars = a ++ b ++ c ∧ a.length = 10 ∧ b.length = 12 ∧ c.length = 4 := by
  refine ⟨chars.take 10, (chars.drop 10).take 12, chars.drop 22, ?_, ?_, ?_, ?_⟩
  · have h1 : chars.drop 10 = (chars.drop 10).take 12 ++ chars.drop 22 := by
      have := (List.take_append_drop 12 (chars.drop 10)).symm
      rwa [List.drop_drop] at this
    rw [List.append_assoc, ← h1, List.take_append_drop]
  · simp [h]
  · simp [h]
  · simp [h]

/-- The fields of a long-name slot. -/
theorem lne_fields (order ck : UInt8) {chars : List UInt8} (h : chars.length = 26) :
    (lne order ck chars).length = 32 ∧ (lne order ck chars).getD 0 0 = order ∧
      slotAttr (lne order ck chars) = attrLongName ∧
      ((lne order ck chars).drop 1).take 10 = chars.take 10 ∧
      ((lne order ck chars).drop 14).take 12 = (chars.drop 10).take 12 ∧
      ((lne order ck chars).drop 28).take 4 = chars.drop 22 := by
  obtain ⟨a, b, c, rfl, ha, hb, hc⟩ := lne_split h
  have h1 : (a ++ b ++ c).take 10 = a := by
    rw [List.append_assoc]
    exact List.take_left' ha
  have h2 : ((a ++ b ++ c).drop 10).take 12 = b := by
    rw [List.append_assoc, List.drop_left' ha]
    exact List.take_left' hb
  have h3 : (a ++ b ++ c).drop 22 = c := List.drop_left' (by simp [ha, hb])
  simp only [lne, h1, h2, h3, slotAttr]
  refine ⟨by simp [ha, hb, hc], rfl, ?_, ?_, ?_, ?_⟩
  · rw [List.getD_eq_getElem?_getD, List.append_assoc, List.append_assoc, List.append_assoc,
      List.getElem?_append_right (by simp [ha])]
    simp [ha]
  · rw [List.append_assoc, List.append_assoc, List.append_assoc, List.append_assoc,
      List.drop_left' (by simp)]
    exact List.take_left' ha
  · rw [List.append_assoc, List.append_assoc, List.drop_left' (by simp [ha])]
    exact List.take_left' hb
  · rw [List.drop_left' (by simp [ha, hb])]
    exact List.take_of_length_le (by omega)

/-- The fields of a short-name slot. -/
theorem sne_fields {name : List UInt8} (attr : UInt8) {clus size : Nat}
    (hn : name.length = charShortName) (hc : clus < 2 ^ 32) (hs : size < 2 ^ 32) :
    (sne name attr clus size).length = 32 ∧
      (sne name attr clus size).getD 0 0 = name.getD 0 0 ∧
      slotAttr (sne name attr clus size) = attr ∧
      sneFirstClus (sne name attr clus size) = clus ∧
      sneFileSize (sne name attr clus size) = size := by
  simp only [charShortName] at hn
  refine ⟨by simp [sne, hn], ?_, ?_, ?_, ?_⟩
  · simp only [sne, List.append_assoc, List.getD_eq_getElem?_getD]
    rw [List.getElem?_append_left (by omega)]
  · simp only [slotAttr, sne, List.append_assoc, List.getD_eq_getElem?_getD]
    rw [List.getElem?_append_right (by omega)]
    simp [hn]
  · have hhi : ((sne name attr clus size).drop 20).take 2 = leBytes 2 (clus / 2 ^ 16) := by
      simp only [sne]
      rw [List.append_assoc, List.append_assoc, List.append_assoc, List.drop_left' (by simp [hn])]
      exact List.take_left' (by simp)
    have hlo : ((sne name attr clus size).drop 26).take 2 = leBytes 2 clus := by
      simp only [sne]
      rw [List.append_assoc, List.drop_left' (by simp [hn])]
      exact List.take_left' (by simp)
    rw [sneFirstClus, hhi, hlo, leNat_leBytes, leNat_leBytes]
    omega
  · have hsz : ((sne name attr clus size).drop 28).take 4 = leBytes 4 size := by
      simp only [sne]
      rw [List.drop_left' (by simp [hn])]
      exact List.take_of_length_le (by simp)
    rw [sneFileSize, hsz, leNat_leBytes]
    omega

/-! ### Reading the name back -/

private theorem snstr_apply_of_not_mem : ∀ (src : List UInt8) (buf : ByteMem) (dst x : Nat),
    x < dst ∨ dst + src.length / 2 ≤ x → snstr buf dst src x = buf x
  | [], buf, dst, x, _ => rfl
  | [_], buf, dst, x, _ => rfl
  | lo :: hi :: src, buf, dst, x, h => by
    simp only [List.length_cons] at h
    rw [snstr]
    split
    · exact fill_apply_of_not_mem _ _ (by omega)
    · rw [snstr_apply_of_not_mem src _ _ x (by omega)]
      exact store_apply_of_not_mem _ _ _ _ (by simp; omega)

/-- Unit `j` of a string of 16-bit units is the terminator. -/
def ZeroUnit (src : List UInt8) (j : Nat) : Prop :=
  src.getD (2 * j) 0 = 0 ∧ src.getD (2 * j + 1) 0 = 0

private theorem zeroUnit_succ {lo hi : UInt8} {src : List UInt8} {j : Nat} :
    ZeroUnit (lo :: hi :: src) (j + 1) ↔ ZeroUnit src j := by
  rw [ZeroUnit, ZeroUnit, show 2 * (j + 1) = 2 * j + 1 + 1 by omega]
  simp only [List.getD_cons_succ]

-- The characters before the terminator are copied, and a zero byte stays at it.
private theorem snstr_copy : ∀ (src : List UInt8) (buf : ByteMem) (dst k : Nat),
    2 * k + 1 < src.length → (∀ j < k, ¬ ZeroUnit src j) →
    (¬ ZeroUnit src k → snstr buf dst src (dst + k) = src.getD (2 * k) 0) ∧
      (ZeroUnit src k → buf (dst + k) = 0 → snstr buf dst src (dst + k) = 0)
  | [], buf, dst, k, h, _ => by simp at h
  | [_], buf, dst, k, h, _ => by simp at h
  | lo :: hi :: src, buf, dst, 0, h, _ => by
    constructor
    · intro hz
      have hz' : ¬ (lo = 0 ∧ hi = 0) := hz
      rw [snstr, if_neg hz', snstr_apply_of_not_mem _ _ _ _ (by omega)]
      exact store_apply_mem _ _ [lo] 0 (by simp)
    · intro hz hb
      have hz' : lo = 0 ∧ hi = 0 := hz
      rw [snstr, if_pos hz']
      by_cases hlen : src.length / 2 = 0
      · rw [fill_apply_of_not_mem _ _ (by omega)]
        exact hb
      · exact fill_apply_mem _ _ (by omega)
  | lo :: hi :: src, buf, dst, k + 1, h, hj => by
    have h0 : ¬ (lo = 0 ∧ hi = 0) := hj 0 (by omega)
    have ih := snstr_copy src (store buf dst [lo]) (dst + 1) k
      (by simp only [List.length_cons] at h; omega) fun j hjk ↦ by
        have := hj (j + 1) (by omega)
        rwa [zeroUnit_succ] at this
    rw [snstr, if_neg h0, show dst + (k + 1) = dst + 1 + k by omega, zeroUnit_succ,
      show 2 * (k + 1) = 2 * k + 1 + 1 by omega, List.getD_cons_succ, List.getD_cons_succ]
    refine ⟨ih.1, fun hz hb ↦ ih.2 hz ?_⟩
    rw [store_apply_of_not_mem _ _ _ _ (by simp)]
    exact hb

private theorem zeroUnit_lneChars {p : List UInt8} (hp : ∀ c ∈ p, c ≠ 0) {t : Nat}
    (ht : t < charLongName) : ZeroUnit (lneChars charLongName p) t ↔ t = p.length := by
  have h := getD_lneChars charLongName t p ht
  rw [ZeroUnit, h.1, h.2]
  constructor
  · intro hz
    by_contra hne
    by_cases hlt : t < p.length
    · rw [if_pos hlt, List.getD_eq_getElem?_getD, List.getElem?_eq_getElem hlt] at hz
      exact hp _ (List.getElem_mem hlt) hz.1
    · have h2 := hz.2
      rw [if_neg (by omega)] at h2
      exact absurd h2 (by decide)
  · intro heq
    rw [if_neg (by omega), if_pos heq, if_pos (by omega)]
    exact ⟨rfl, rfl⟩

private theorem getD_segment (chars : List UInt8) {a b j : Nat} (h : j < b) :
    ((chars.drop a).take b).getD j 0 = chars.getD (a + j) 0 := by
  rw [List.getD_eq_getElem?_getD, List.getElem?_take_of_lt h, List.getElem?_drop,
    List.getD_eq_getElem?_getD]

-- One of the three fields of a slot, that holds the units `u` to `u + w` of its group.
private theorem snstr_segment {p : List UInt8} (hp : ∀ c ∈ p, c ≠ 0) (buf : ByteMem)
    (dst : Nat) {u w k : Nat} (hk : k < w) (hw : u + w ≤ charLongName) :
    (u + k < p.length → snstr buf dst (((lneChars charLongName p).drop (2 * u)).take (2 * w))
      (dst + k) = p.getD (u + k) 0) ∧
    (u + k = p.length → buf (dst + k) = 0 →
      snstr buf dst (((lneChars charLongName p).drop (2 * u)).take (2 * w)) (dst + k) = 0) := by
  have hz : ∀ j < w, ZeroUnit (((lneChars charLongName p).drop (2 * u)).take (2 * w)) j ↔
      u + j = p.length := by
    intro j hj
    rw [ZeroUnit, getD_segment _ (by omega), getD_segment _ (by omega),
      show 2 * u + 2 * j = 2 * (u + j) by omega,
      show 2 * u + (2 * j + 1) = 2 * (u + j) + 1 by omega]
    exact zeroUnit_lneChars hp (by omega)
  have hlen : (((lneChars charLongName p).drop (2 * u)).take (2 * w)).length = 2 * w := by
    rw [List.length_take, List.length_drop, length_lneChars]
    omega
  have hcopy := snstr_copy (((lneChars charLongName p).drop (2 * u)).take (2 * w)) buf dst k
    (by omega)
  constructor
  · intro ht
    have hbefore : ∀ j < k,
        ¬ ZeroUnit (((lneChars charLongName p).drop (2 * u)).take (2 * w)) j := by
      intro j hj hzj
      have := (hz j (by omega)).mp hzj
      omega
    rw [(hcopy hbefore).1, getD_segment _ (by omega), show 2 * u + 2 * k = 2 * (u + k) by omega,
      (getD_lneChars charLongName (u + k) p (by omega)).1, if_pos ht]
    rw [hz k hk]
    omega
  · intro ht hb
    refine (hcopy fun j hj hzj ↦ ?_).2 ((hz k hk).mpr ht) hb
    have := (hz j (by omega)).mp hzj
    omega

/-- Reading a slot back copies its characters and changes nothing outside of its group. -/
theorem readLongName_lne {p : List UInt8} (hp : ∀ c ∈ p, c ≠ 0) (order ck : UInt8)
    (buf : ByteMem) (dst : Nat) :
    (∀ x, x < dst ∨ dst + charLongName ≤ x →
      readLongName buf dst (lne order ck (lneChars charLongName p)) x = buf x) ∧
    (∀ t < charLongName, t < p.length →
      readLongName buf dst (lne order ck (lneChars charLongName p)) (dst + t) = p.getD t 0) ∧
    (∀ t < charLongName, t = p.length → buf (dst + t) = 0 →
      readLongName buf dst (lne order ck (lneChars charLongName p)) (dst + t) = 0) := by
  have hlen := length_lneChars charLongName p
  simp only [charLongName, Nat.reduceMul] at hlen
  obtain ⟨_, _, _, h1, h2, h3⟩ := lne_fields order ck hlen
  have hs1 : ((lneChars 13 p).drop (2 * 0)).take (2 * 5) = (lneChars 13 p).take 10 := rfl
  have hs3 : ((lneChars 13 p).drop (2 * 11)).take (2 * 2) = (lneChars 13 p).drop 22 :=
    List.take_of_length_le (by simp [hlen])
  have hl1 : ((lneChars 13 p).take 10).length / 2 = 5 := by simp [hlen]
  have hl2 : (((lneChars 13 p).drop 10).take 12).length / 2 = 6 := by simp [hlen]
  have hl3 : ((lneChars 13 p).drop 22).length / 2 = 2 := by simp [hlen]
  simp only [readLongName, charLongName, h1, h2, h3]
  generalize hb1 : snstr buf dst ((lneChars 13 p).take 10) = b1
  generalize hb2 : snstr b1 (dst + 5) (((lneChars 13 p).drop 10).take 12) = b2
  generalize hb3 : snstr b2 (dst + 11) ((lneChars 13 p).drop 22) = b3
  -- each field changes its own positions only
  have ho1 : ∀ x, x < dst ∨ dst + 5 ≤ x → b1 x = buf x := by
    intro x hx
    rw [← hb1]
    exact snstr_apply_of_not_mem _ _ _ _ (by omega)
  have ho2 : ∀ x, x < dst + 5 ∨ dst + 11 ≤ x → b2 x = b1 x := by
    intro x hx
    rw [← hb2]
    exact snstr_apply_of_not_mem _ _ _ _ (by omega)
  have ho3 : ∀ x, x < dst + 11 ∨ dst + 13 ≤ x → b3 x = b2 x := by
    intro x hx
    rw [← hb3]
    exact snstr_apply_of_not_mem _ _ _ _ (by omega)
  have hchar : ∀ t < 13, (t < p.length → b3 (dst + t) = p.getD t 0) ∧
      (t = p.length → buf (dst + t) = 0 → b3 (dst + t) = 0) := by
    intro t ht
    by_cases h5 : t < 5
    · have := snstr_segment hp buf dst (u := 0) (w := 5) (k := t) h5 (by decide)
      rw [hs1, hb1, Nat.zero_add] at this
      rw [ho3 _ (by omega), ho2 _ (by omega)]
      exact this
    · by_cases h11 : t < 11
      · have := snstr_segment hp b1 (dst + 5) (u := 5) (w := 6) (k := t - 5) (by omega) (by decide)
        simp only [charLongName, Nat.reduceMul] at this
        rw [hb2, show dst + 5 + (t - 5) = dst + t by omega, show 5 + (t - 5) = t by omega,
          ho1 _ (by omega)] at this
        rw [ho3 _ (by omega)]
        exact this
      · have := snstr_segment hp b2 (dst + 11) (u := 11) (w := 2) (k := t - 11) (by omega)
          (by decide)
        rw [hs3, hb3, show dst + 11 + (t - 11) = dst + t by omega,
          show 11 + (t - 11) = t by omega, ho2 _ (by omega), ho1 _ (by omega)] at this
        exact this
  refine ⟨fun x hx ↦ ?_, fun t ht ↦ (hchar t ht).1, fun t ht ↦ (hchar t ht).2⟩
  rw [ho3 _ (by omega), ho2 _ (by omega), ho1 _ (by omega)]

/-- How many slots a long name has. -/
theorem length_longSlots (name : List UInt8) (ck : UInt8) (entcnt : Nat) :
    ∀ k, (longSlots name ck entcnt k).length = k
  | 0 => rfl
  | k + 1 => by rw [longSlots, List.length_cons, length_longSlots]

/-- The slots that `emake` writes in front of the short name are a run of long-name slots. -/
theorem longRun_longSlots (name : List UInt8) (ck : UInt8) (entcnt : Nat) :
    ∀ k, LongRun entcnt (longSlots name ck entcnt k)
  | 0 => trivial
  | k + 1 => by
    obtain ⟨hlen, horder, hattr, _⟩ := lne_fields (orderByte entcnt (k + 1)) ck
      (length_lneChars charLongName (name.drop (k * charLongName)))
    rw [longSlots, LongRun, length_longSlots]
    exact ⟨hlen, hattr, horder, longRun_longSlots name ck entcnt k⟩

/-- What the groups of a name leave of a buffer: the characters, and a zero that was there behind
them. -/
theorem readLongs_longSlots {name : List UInt8} (hn : ∀ c ∈ name, c ≠ 0) (ck : UInt8)
    (entcnt : Nat) : ∀ (k : Nat) (buf : ByteMem),
    (∀ x, k * charLongName ≤ x → readLongs (longSlots name ck entcnt k) buf x = buf x) ∧
    (∀ x < k * charLongName, x < name.length →
      readLongs (longSlots name ck entcnt k) buf x = name.getD x 0) ∧
    (∀ x, x = name.length → buf x = 0 → readLongs (longSlots name ck entcnt k) buf x = 0)
  | 0, buf => ⟨fun _ _ ↦ rfl, fun x hx _ ↦ by simp at hx, fun _ _ hb ↦ hb⟩
  | k + 1, buf => by
    have hp : ∀ c ∈ name.drop (k * charLongName), c ≠ 0 :=
      fun c hc ↦ hn c (List.mem_of_mem_drop hc)
    have hr := readLongName_lne hp (orderByte entcnt (k + 1)) ck buf (k * charLongName)
    simp only [longSlots, readLongs, length_longSlots]
    generalize readLongName buf (k * charLongName) _ = b1 at hr ⊢
    have ih := readLongs_longSlots hn ck entcnt k b1
    simp only [charLongName, List.length_drop] at hr ih ⊢
    refine ⟨fun x hx ↦ ?_, fun x hx hxn ↦ ?_, fun x hx hb ↦ ?_⟩
    · rw [ih.1 x (by omega), hr.1 x (by omega)]
    · by_cases hk : x < k * 13
      · exact ih.2.1 x hk hxn
      · have h1 := hr.2.1 (x - k * 13) (by omega) (by omega)
        rw [show k * 13 + (x - k * 13) = x by omega] at h1
        rw [ih.1 x (by omega), h1, List.getD_eq_getElem?_getD, List.getElem?_drop,
          show k * 13 + (x - k * 13) = x by omega, List.getD_eq_getElem?_getD]
    · by_cases hk : x < k * 13
      · exact ih.2.2 x hx (by rw [hr.1 x (by omega)]; exact hb)
      · rw [ih.1 x (by omega)]
        by_cases hk' : x < k * 13 + 13
        · have h1 := hr.2.2 (x - k * 13) (by omega) (by omega)
          rw [show k * 13 + (x - k * 13) = x by omega] at h1
          exact h1 hb
        · rw [hr.1 x (by omega)]
          exact hb

/-- The name in a buffer ends at the first zero byte. -/
theorem nameOf_eq {name : List UInt8} (hn : ∀ c ∈ name, c ≠ 0) (hlen : name.length ≤ 255)
    {b : ByteMem} (hbyte : ∀ k (hk : k < name.length), b k = name[k]) (hzero : b name.length = 0) :
    nameOf b = name := by
  have hload : load b 0 name.length = name := by
    apply List.ext_getElem
    · simp
    · intro k h1 h2
      simpa [load] using hbyte k h2
  have hsplit : load b 0 256 = name ++ 0 :: load b (name.length + 1) (255 - name.length) := by
    rw [show 256 = name.length + (1 + (255 - name.length)) by omega, load_add, hload, load_add,
      Nat.zero_add]
    simp [load, hzero]
  rw [nameOf, hsplit, List.takeWhile_append_of_pos (by simpa using hn),
    List.takeWhile_cons_of_neg (by simp), List.append_nil]

/-- All groups of a name, read into a cleared buffer, give the name back. -/
theorem nameOf_readLongs {name : List UInt8} (hn : ∀ c ∈ name, c ≠ 0)
    (hlen : name.length ≤ fat32MaxFilename) (ck : UInt8) (entcnt : Nat) {buf : ByteMem}
    (hbuf : ∀ x < 256, buf x = 0) :
    nameOf (readLongs (longSlots name ck entcnt (longCount name)) buf) = name := by
  simp only [fat32MaxFilename] at hlen
  obtain ⟨_, hchar, hstop⟩ := readLongs_longSlots hn ck entcnt (longCount name) buf
  generalize readLongs (longSlots name ck entcnt (longCount name)) buf = b at hchar hstop ⊢
  have hcover : name.length ≤ longCount name * charLongName := by
    simp only [longCount, charLongName]
    omega
  apply nameOf_eq hn hlen
  · intro k hk
    have := hchar k (by omega) hk
    rwa [List.getD_eq_getElem?_getD, List.getElem?_eq_getElem hk] at this
  · exact hstop _ rfl (hbuf _ (by omega))

/-! ### Decoding the slots -/

/-- A slot of a long name has 32 bytes. -/
theorem longSlots_length (name : List UInt8) (ck : UInt8) (entcnt : Nat) :
    ∀ k, ∀ de ∈ longSlots name ck entcnt k, de.length = 32
  | 0, de, h => by cases h
  | k + 1, de, h => by
    rw [longSlots, List.mem_cons] at h
    rcases h with rfl | h
    · exact (lne_fields _ _ (length_lneChars charLongName _)).1
    · exact longSlots_length name ck entcnt k de h

-- Once the count pointer is cleared, a deleted slot ends the entry without a result.
/-- Without `count` empty slots are passed to the end. -/
theorem enextLoop_uncounted {v : Volume} {ep : Dirent} : ∀ (fuel : Nat) {dp : Dirent}
    {buf : ByteMem} {off cnt : Nat} {count : Option Nat} {r : EnextOut}, cnt ≠ 0 →
    enextLoop v ep fuel dp buf off cnt false count = .ok r → r.ret = -1
  | 0, dp, buf, off, cnt, count, r, _, h => by cases h
  | fuel + 1, dp, buf, off, cnt, count, r, hcnt, h => by
    obtain ⟨dp', de, _, ⟨_, _, _, _, hstep, hloop⟩ | ⟨_, hret⟩⟩ := enextLoop_cases h
    · rcases hstep with ⟨_, rfl, rfl⟩ | ⟨_, hzero, _⟩
      · exact enextLoop_uncounted fuel (by omega) hloop
      · exact absurd hzero hcnt
    · rcases hret with hret | ⟨_, _, hlive⟩ | ⟨_, hzero, _⟩
      · exact hret
      · cases hlive
      · exact absurd hzero hcnt

/-! ### The round trip -/

/-- An accepted name has no control characters and starts with neither space nor dot. -/
theorem formatname_spec {raw name : List UInt8} (h : formatname raw = some name) :
    (∀ c ∈ name, 0x20 ≤ c) ∧ ∀ c t, name = c :: t → c ≠ spaceCh ∧ c ≠ dotCh := by
  unfold formatname at h
  dsimp only at h
  split at h
  · cases h
  · next hany =>
    generalize hd : raw.dropWhile (fun c ↦ c == spaceCh || c == dotCh) = l at h hany
    cases h
    have hpre : l.rdropWhile (· == spaceCh) <+: l := List.rdropWhile_prefix _ _
    constructor
    · intro c hc
      have hcl : c ∈ l := hpre.subset hc
      have hbad : ¬ ((decide (c < 0x20) || longIllegal.contains c) = true) :=
        fun hx ↦ hany (List.any_eq_true.mpr ⟨c, hcl, hx⟩)
      simp only [Bool.or_eq_true, decide_eq_true_eq, not_or] at hbad
      exact UInt8.not_lt.mp hbad.1
    · intro c t hct
      rw [hct] at hpre
      obtain ⟨u, hu⟩ := hpre
      have hhead := List.head?_dropWhile_not (fun c ↦ c == spaceCh || c == dotCh) raw
      rw [hd, ← hu] at hhead
      simp only [List.cons_append, List.head?_cons, Bool.or_eq_false_iff, beq_eq_false_iff_ne]
        at hhead
      exact hhead

/-- The place of a new entry: a live directory on its chain, and an aligned offset in it,
behind `.` and `..`, with room for `n` slots. -/
structure MakeSite (v : Volume) (chain : Nat → List Nat) (i : Nat) (dp : Dirent)
    (off n : Nat) : Prop where
  wf : FatWf v chain
  reserved : v.fat 1 ≠ 0
  onChain : OnChain dp (chain i)
  firstClus : dp.firstClus ≠ 0
  isDir : dp.attr &&& attrDirectory ≠ 0
  valid : dp.valid = 1
  aligned : off % 32 = 0
  behindDots : 64 ≤ off
  bound : off < 2 ^ 32
  inside : off ≤ (chain i).length * v.geom.bytsPerClus
  room : clustersFor v.geom (min (off + 32 * n) (2 ^ 32)) - (chain i).length ≤ freeCount v

/-- An entry as `ealloc` fills it: an accepted name of 1 to 255 characters, an attribute that
`ealloc` stores, and any first cluster and size. -/
structure Makeable (ep : Dirent) : Prop where
  accepted : ∃ raw, formatname raw = some ep.filename
  pos : 1 ≤ ep.filename.length
  short : ep.filename.length ≤ fat32MaxFilename
  attr : ∃ kind : NodeKind, ep.attr = eallocAttr kind.attr
  clus : ep.firstClus < 2 ^ 32
  size : ep.fileSize < 2 ^ 32

/-- Decoding at `off` what `emake` wrote there yields the same entry and its slot count. -/
def RoundTrips (v : Volume) (dp ep : Dirent) (off : Nat) : Prop :=
  ∃ v' dp', emake v dp ep off = .ok (v', dp') ∧
    ∀ (blank : Dirent) (count : Option Nat), blank.valid = 0 →
      ∃ r, enext v' dp' blank off count = .ok r ∧ r.ret = 1 ∧
        r.ep.filename = ep.filename ∧ r.ep.attr = ep.attr ∧ r.ep.firstClus = ep.firstClus ∧
        r.ep.fileSize = ep.fileSize ∧ r.count = some (longCount ep.filename + 1)

/-- A legal name has 1 to 20 slots. -/
theorem longCount_bounds {name : List UInt8} (h1 : 1 ≤ name.length)
    (h2 : name.length ≤ fat32MaxFilename) : 1 ≤ longCount name ∧ longCount name ≤ 20 := by
  simp only [longCount, charLongName]
  simp only [fat32MaxFilename] at h2
  omega

private theorem length_entrySlots (ep : Dirent) :
    (entrySlots ep).length = longCount ep.filename + 1 := by
  simp only [entrySlots, List.length_append, length_longSlots, List.length_singleton]

private theorem entrySlots_length {ep : Dirent} (h : Makeable ep) :
    ∀ de ∈ entrySlots ep, de.length = 32 := by
  intro de hde
  simp only [entrySlots, List.mem_append, List.mem_singleton] at hde
  rcases hde with hde | rfl
  · exact longSlots_length _ _ _ _ de hde
  · exact (sne_fields _ (length_generateShortname _) h.clus h.size).1

-- The slots in the chain are at least as many as the entry takes, also where the offset
-- runs over the end of the 32-bit range.
private theorem enextFuel_ge {v : Volume} {l : List Nat} (hl : IsChain v l) (hn : l.Nodup)
    {off k : Nat} (hk : k ≤ 20) (ha : off % 32 = 0) (hlt : off < 2 ^ 32)
    (h0 : off < l.length * v.geom.bytsPerClus)
    (hlast : slotOff off k < l.length * v.geom.bytsPerClus) : k + 1 ≤ enextFuel v := by
  have hdvd : 32 ∣ v.geom.bytsPerClus := by
    rw [Geom.bytsPerClus]
    exact Dvd.dvd.mul_left (by decide) _
  obtain ⟨m, hm⟩ := hdvd
  have hle : l.length * m ≤ v.geom.dataClusCnt * m :=
    Nat.mul_le_mul_right _ (hl.length_le hn)
  have hdiv : v.geom.bytsPerClus / 32 = m := by omega
  rw [hm, Nat.mul_left_comm] at h0 hlast
  rw [enextFuel, hdiv]
  simp only [slotOff] at hlast
  omega

/-- `emake` returns, and `enext` then reads the long-name slots and stops at the short one. -/
theorem enext_emake {v : Volume} {chain : Nat → List Nat} {i : Nat} {dp ep : Dirent}
    {off : Nat} (hs : MakeSite v chain i dp off (longCount ep.filename + 1)) (he : Makeable ep) :
    ∃ v' dp' l fuel, emake v dp ep off = .ok (v', dp') ∧
      ∀ (blank : Dirent) (count : Option Nat), blank.valid = 0 →
        ∃ dp2, IsChain v' l ∧ OnChain dp2 l ∧ dp2.firstClus ≠ 0 ∧
          SlotsAt v' l (slotOff off (longCount ep.filename))
            [sne (generateShortname ep.filename) ep.attr ep.firstClus ep.fileSize] ∧
          enext v' dp' blank off count =
            enextLoop v' blank (fuel + 1) dp2 (readLongs (longSlots ep.filename
              (calChecksum (generateShortname ep.filename)) (longCount ep.filename)
              (longCount ep.filename)) fun x ↦ if x = 256 then blank.attr else 0)
              (slotOff off (longCount ep.filename)) 0 false
              (some (longCount ep.filename + 1)) := by
  obtain ⟨hk1, hk2⟩ := longCount_bounds he.pos he.short
  have hcount := length_entrySlots ep
  obtain ⟨v', dp', l, hput, hp⟩ := putSlots_total (entrySlots ep) (i := i) off
    (clustersFor v.geom (min (off + 32 * (longCount ep.filename + 1)) (2 ^ 32))) hs.wf hs.reserved
      hs.onChain hs.firstClus (entrySlots_length he) (by omega) hs.aligned
    hs.bound hs.inside
    (by
      intro j hj
      apply div_lt_clustersFor
      simp only [slotOff]
      omega) hs.room
  have hg := hp.grown.geom
  have hchain : IsChain v' l := by
    have := hp.grown.wf.isChain i
    rwa [Function.update_self] at this
  have hnodup : l.Nodup := by
    have := hp.grown.wf.forest.nodup i
    rwa [Function.update_self] at this
  have hat : SlotsAt v' l off (entrySlots ep) := by
    intro j hj
    rw [hg]
    exact ⟨hp.inside j hj, hp.slots j hj⟩
  have hfuel : longCount ep.filename + 1 ≤ enextFuel v' := by
    apply enextFuel_ge hchain hnodup hk2 hs.aligned hs.bound
    · have h0 := (hat 0 (by omega)).1
      rwa [slotOff_zero hs.bound] at h0
    · exact (hat (longCount ep.filename) (by omega)).1
  obtain ⟨fuel, hfuel⟩ := Nat.exists_eq_add_of_le hfuel
  refine ⟨v', dp', l, fuel, ?_, fun blank count hblank ↦ ?_⟩
  · rw [emake_eq_putSlots hs.isDir hs.aligned (by have := hs.behindDots; omega)]
    exact hput
  · have hattr : dp'.attr = dp.attr := by rw [hp.grown.entry]
    have hvalid : dp'.valid = dp.valid := by rw [hp.grown.entry]
    have hfc : dp'.firstClus = dp.firstClus := by rw [hp.grown.entry]
    have hlen := length_longSlots ep.filename (calChecksum (generateShortname ep.filename))
      (longCount ep.filename) (longCount ep.filename)
    obtain ⟨dp2, hloop, hse, ho2, hrest⟩ := enextLoop_longs hchain blank hk2 count
      [sne (generateShortname ep.filename) ep.attr ep.firstClus ep.fileSize] (fuel + 1)
      (longSlots ep.filename (calChecksum (generateShortname ep.filename)) (longCount ep.filename)
        (longCount ep.filename)) (fun x ↦ if x = 256 then blank.attr else 0)
      (Nat.le_of_eq hlen) (longRun_longSlots _ _ _ _) hp.grown.onChain
      (by rw [hfc]; exact hs.firstClus) hs.aligned hs.bound hat
    rw [hlen] at hloop hrest
    have hne : ¬ 0 = longCount ep.filename := by omega
    rw [if_pos rfl, decide_eq_true rfl, if_neg hne, decide_eq_false hne] at hloop
    refine ⟨dp2, hchain, ho2, ?_, hrest, ?_⟩
    · rw [hse]
      show dp'.firstClus ≠ 0
      rw [hfc]
      exact hs.firstClus
    · have hft : enextFuel v' = fuel + 1 + longCount ep.filename := by omega
      rw [enext, hattr, if_neg hs.isDir, if_neg (by simp [hblank]), if_neg (by
        have := hs.aligned
        omega), hvalid, if_neg (by simp [hs.valid]), hft]
      exact hloop

/-- No new entry looks like a long-name slot. -/
theorem eallocAttr_ne_long (kind : NodeKind) : eallocAttr kind.attr ≠ attrLongName := by
  cases kind with
  | dir => decide
  | device => decide
  | file ro => cases ro <;> decide

/-- The first byte of the short-name slot, from the first character of the name. -/
theorem sne_first {name : List UInt8} {attr : UInt8} {clus size : Nat} (hne : name ≠ [])
    (hchars : ∀ c ∈ name, 0x20 ≤ c) (hfirst : ∀ c t, name = c :: t → c ≠ spaceCh ∧ c ≠ dotCh)
    (hc : clus < 2 ^ 32) (hs : size < 2 ^ 32) : ∃ c t, name = c :: t ∧
      (sne (generateShortname name) attr clus size).getD 0 0 = shortChar c ∧ c ≠ 0 := by
  cases hname : name with
  | nil => exact absurd hname hne
  | cons c t =>
    obtain ⟨hsp, hdot⟩ := hfirst c t hname
    obtain ⟨u, hu⟩ := head_generateShortname t hsp hdot
    refine ⟨c, t, rfl, ?_, ?_⟩
    · rw [(sne_fields _ (length_generateShortname _) hc hs).2.1, hu]
      rfl
    · rintro rfl
      exact absurd (hchars 0 (by rw [hname]; simp)) (by decide)

private theorem sne_order {ep : Dirent} (he : Makeable ep) : ∃ c t, ep.filename = c :: t ∧
    (sne (generateShortname ep.filename) ep.attr ep.firstClus ep.fileSize).getD 0 0 = shortChar c ∧
    c ≠ 0 := by
  obtain ⟨raw, hraw⟩ := he.accepted
  obtain ⟨hchars, hfirst⟩ := formatname_spec hraw
  exact sne_first (List.ne_nil_of_length_pos he.pos) hchars hfirst he.clus he.size

/-- A name that does not start with `0xe5` is decoded as it was written. -/
theorem roundTrips_of_head {v : Volume} {chain : Nat → List Nat} {i : Nat} {dp ep : Dirent}
    {off : Nat} (hs : MakeSite v chain i dp off (longCount ep.filename + 1)) (he : Makeable ep)
    (hhead : ep.filename.head? ≠ some emptyEntry) : RoundTrips v dp ep off := by
  obtain ⟨v', dp', l, fuel, hmake, hnext⟩ := enext_emake hs he
  refine ⟨v', dp', hmake, fun blank count hblank ↦ ?_⟩
  obtain ⟨dp2, hchain, ho2, hf2, hat, heq⟩ := hnext blank count hblank
  have halign := slotOff_mod hs.aligned (longCount ep.filename)
  have hbound : slotOff off (longCount ep.filename) < 2 ^ 32 := Nat.mod_lt _ (by decide)
  obtain ⟨hin, hslot⟩ := hat.head hbound
  obtain ⟨dp3, hread, _, _⟩ := enextSlot_inside hchain ho2 hf2 halign hin
  obtain ⟨hlen, _, hattr, hclus, hsize⟩ := sne_fields ep.attr
    (length_generateShortname ep.filename) he.clus he.size
  obtain ⟨c, t, hname, horder, hc0⟩ := sne_order he
  have hcE : c ≠ emptyEntry := by
    intro hc
    rw [hname, hc] at hhead
    exact hhead rfl
  obtain ⟨raw, hraw⟩ := he.accepted
  have hzero : ∀ c ∈ ep.filename, c ≠ 0 := by
    intro b hb h0
    have := (formatname_spec hraw).1 b hb
    rw [h0] at this
    exact absurd this (by decide)
  obtain ⟨kind, hkind⟩ := he.attr
  have hnl : ep.attr ≠ attrLongName := by
    rw [hkind]
    exact eallocAttr_ne_long kind
  rw [heq, enextLoop, hread]
  simp only [hslot, hlen, horder, hattr, hclus, hsize, endOfEntry, shortChar_zero_iff,
    shortChar_empty_iff, hc0, hcE, hnl, ne_eq, not_true_eq_false, or_self, if_false,
    Bool.false_eq_true]
  refine ⟨_, rfl, rfl, ?_, rfl, rfl, rfl, rfl⟩
  exact nameOf_readLongs hzero he.short _ _ fun x hx ↦ if_neg (by omega)

/-- A name that starts with `0xe5` is never decoded: its short-name slot reads as deleted. -/
theorem not_roundTrips_of_head {v : Volume} {chain : Nat → List Nat} {i : Nat} {dp ep : Dirent}
    {off : Nat} (hs : MakeSite v chain i dp off (longCount ep.filename + 1)) (he : Makeable ep)
    (hhead : ep.filename.head? = some emptyEntry) : ¬ RoundTrips v dp ep off := by
  rintro ⟨w, dq, hmake', hall⟩
  obtain ⟨v', dp', l, fuel, hmake, hnext⟩ := enext_emake hs he
  rw [hmake] at hmake'
  cases hmake'
  obtain ⟨r, hr, hret, _⟩ := hall {} none rfl
  obtain ⟨dp2, hchain, ho2, hf2, hat, heq⟩ := hnext {} none rfl
  have halign := slotOff_mod hs.aligned (longCount ep.filename)
  have hbound : slotOff off (longCount ep.filename) < 2 ^ 32 := Nat.mod_lt _ (by decide)
  obtain ⟨hin, hslot⟩ := hat.head hbound
  obtain ⟨dp3, hread, _, _⟩ := enextSlot_inside hchain ho2 hf2 halign hin
  have hlen := (sne_fields ep.attr (length_generateShortname ep.filename) he.clus he.size).1
  obtain ⟨c, t, hname, horder, hc0⟩ := sne_order he
  have hcE : c = emptyEntry := by
    rw [hname, List.head?_cons, Option.some.injEq] at hhead
    exact hhead
  rw [heq, enextLoop, hread] at hr
  simp only [hslot, hlen, horder, endOfEntry, shortChar_zero_iff, shortChar_empty_iff, hcE, ne_eq,
    not_true_eq_false, if_false, if_true] at hr
  have := enextLoop_uncounted fuel (by decide) hr
  rw [this] at hret
  exact absurd hret (by decide)

/-- What `emake` wrote is decoded to the same entry exactly when the name does not start
with the byte `0xe5`. -/
theorem roundTrips_iff {v : Volume} {chain : Nat → List Nat} {i : Nat} {dp ep : Dirent}
    {off : Nat} (hs : MakeSite v chain i dp off (longCount ep.filename + 1)) (he : Makeable ep) :
    RoundTrips v dp ep off ↔ ep.filename.head? ≠ some emptyEntry := by
  constructor
  · intro hr hhead
    exact not_roundTrips_of_head hs he hhead hr
  · exact roundTrips_of_head hs he

private theorem smallRoot_site (name : List UInt8) (h : name.length ≤ 13) :
    MakeSite smallVolume (fun i ↦ if i = 0 then [2] else []) 0 smallRoot 64
      (longCount name + 1) where
  wf := smallFs_integrity.table
  reserved := by decide
  onChain := ⟨rfl, fun _ ↦ rfl⟩
  firstClus := by decide
  isDir := by decide
  valid := rfl
  aligned := rfl
  behindDots := Nat.le_refl _
  bound := by decide
  inside := by decide
  room := by
    have hl : longCount name ≤ 1 := by
      simp only [longCount, charLongName]
      omega
    have hc : clustersFor smallVolume.geom (min (64 + 32 * (longCount name + 1)) (2 ^ 32)) ≤ 1 := by
      apply clustersFor_le
      have hb : smallVolume.geom.bytsPerClus = 512 := by decide
      omega
    simp only [if_true, List.length_singleton]
    omega

/-- A file as `ealloc` fills it, with the given name. -/
def smallEntry (name : List UInt8) : Dirent := { filename := name, attr := attrArchive, ref := 1 }

private theorem smallEntry_makeable {name : List UInt8} (h : formatname name = some name)
    (h1 : 1 ≤ name.length) (h2 : name.length ≤ 13) : Makeable (smallEntry name) where
  accepted := ⟨name, h⟩
  pos := h1
  short := Nat.le_trans h2 (by decide)
  attr := ⟨.file false, rfl⟩
  clus := Nat.two_pow_pos 32
  size := Nat.two_pow_pos 32

/-- The file `ab` in the root directory of the small volume. -/
theorem roundTrips_iff_small : RoundTrips smallVolume smallRoot (smallEntry [0x61, 0x62]) 64 :=
  (roundTrips_iff (smallRoot_site [0x61, 0x62] (by decide))
    (smallEntry_makeable (by decide) (by decide) (by decide))).mpr (by decide)

/-- The accepted name whose two bytes are `0xe5` and `a` is not found again. -/
theorem not_roundTrips_small : formatname [0xe5, 0x61] = some [0xe5, 0x61] ∧
    ¬ RoundTrips smallVolume smallRoot (smallEntry [0xe5, 0x61]) 64 :=
  ⟨by decide, not_roundTrips_of_head (smallRoot_site [0xe5, 0x61] (by decide))
    (smallEntry_makeable (by decide) (by decide) (by decide)) rfl⟩

end Xv6K210.Fs
