/-
UAgent/Web/RfbForwards.lean

What the screen's filter forwards (src/web/rfb_filter.cc), against the protocol
(`Rfb.ClientMessage`).

The filter measures two kinds of messages otherwise than the protocol does:
SetDesktopSize for any number of screens but one, and the QEMU messages that are
no key events (`Mismeasured`).  Main result: `run_forwards`, for streams without
them.
-/
import UAgent.Base.Rfb
import UAgent.Web.RfbFilter
import Mathlib.Data.Nat.Bitwise

namespace UAgent

open Bytes Rfb

/-! ### Numbers -/

/-- A shifted byte and the next are the number of both. -/
theorem toNat_push16 (hi lo : UInt8) :
    (hi.toUInt16 <<< 8 ||| lo.toUInt16).toNat = bigEndian [hi, lo] := by
  have hhi : hi.toNat < 256 := hi.toNat_lt
  have hlo : lo.toNat < 2 ^ 8 := lo.toNat_lt
  have hshift : (hi.toUInt16 <<< 8).toNat = hi.toNat <<< 8 := by
    rw [UInt16.toNat_shiftLeft, UInt8.toNat_toUInt16]
    show hi.toNat <<< 8 % 2 ^ 16 = _
    rw [Nat.shiftLeft_eq]
    omega
  rw [UInt16.toNat_or, hshift, UInt8.toNat_toUInt16, ← Nat.shiftLeft_add_eq_or_of_lt hlo,
    Nat.shiftLeft_eq, bigEndian]
  simp

theorem toNat_foldl32 {bytes : Bytes} (h : bytes.length ≤ 4) :
    (bytes.foldl (fun (value : UInt32) byte => value <<< 8 ||| byte.toUInt32) 0).toNat =
      bigEndian bytes := by
  induction bytes using List.reverseRecOn with
  | nil => rfl
  | append_singleton bytes byte ih =>
    rw [List.length_append, List.length_singleton] at h
    have hbyte : byte.toNat < 2 ^ 8 := byte.toNat_lt
    have hlt : bigEndian bytes < 256 ^ 3 :=
      (bigEndian_lt bytes).trans_le (Nat.pow_le_pow_right (by decide) (by omega))
    rw [List.foldl_append, List.foldl_cons, List.foldl_nil, bigEndian_concat, UInt32.toNat_or,
      UInt32.toNat_shiftLeft, ih (by omega), UInt8.toNat_toUInt32]
    show bigEndian bytes <<< 8 % 2 ^ 32 ||| _ = _
    rw [Nat.mod_eq_of_lt (by rw [Nat.shiftLeft_eq]; omega), ← Nat.shiftLeft_add_eq_or_of_lt hbyte,
      Nat.shiftLeft_eq]

theorem toNat_read16 (t p hi lo : UInt8) (rest : Bytes) :
    (read16 (t :: p :: hi :: lo :: rest) 2).toNat = bigEndian [hi, lo] := toNat_push16 hi lo

theorem toNat_read32 (t p q r a b c d : UInt8) (rest : Bytes) :
    (read32 (t :: p :: q :: r :: a :: b :: c :: d :: rest) 4).toNat = bigEndian [a, b, c, d] :=
  @toNat_foldl32 [a, b, c, d] le_rfl

/-- The highest bit tells the greater numbers. -/
theorem and_two_pow_eq_zero_iff {n k : Nat} (h : n < 2 ^ (k + 1)) :
    n &&& 2 ^ k = 0 ↔ n < 2 ^ k := by
  rw [Nat.and_two_pow, Nat.mul_eq_zero, Nat.testBit_eq_decide_div_mod_eq]
  have hhalf : n / 2 ^ k < 2 := (Nat.div_lt_iff_lt_mul (Nat.two_pow_pos k)).mpr (by
    rwa [Nat.mul_comm, ← Nat.pow_succ])
  rw [← Nat.div_eq_zero_iff_lt (Nat.two_pow_pos k)]
  generalize n / 2 ^ k = half at hhalf ⊢
  obtain rfl | rfl : half = 0 ∨ half = 1 := by omega
  all_goals simp

theorem signBit_iff (n : UInt32) : n &&& 0x80000000 ≠ 0 ↔ 2 ^ 31 ≤ n.toNat := by
  rw [ne_eq, ← UInt32.toNat_inj, UInt32.toNat_and, ← not_lt]
  exact not_congr (and_two_pow_eq_zero_iff n.toNat_lt)

theorem buttonBit_iff (n : UInt8) : n &&& 0x80 ≠ 0 ↔ 128 ≤ n.toNat := by
  rw [ne_eq, ← UInt8.toNat_inj, UInt8.toNat_and, ← not_lt]
  exact not_congr (and_two_pow_eq_zero_iff n.toNat_lt)

/-! ### Messages and what the filter makes of them -/

/-- The types of the display messages: SetPixelFormat, SetEncodings,
FramebufferUpdateRequest, EnableContinuousUpdates and the fence. -/
def displayTypes : List UInt8 := [0, 2, 3, 150, 248]

/-- A message the filter takes to be of another length than it has:
SetDesktopSize for any number of screens but one, and the QEMU messages that
are no key events. -/
def Mismeasured (s : Bytes) : Prop :=
  s[0]? = some 251 ∧ (∃ screens, s[6]? = some screens ∧ screens ≠ 1) ∨
    s[0]? = some 255 ∧ ∃ kind, s[1]? = some kind ∧ kind ≠ 0

theorem not_mismeasured_of_not_mem {s : Bytes} (h : 251 ∉ s) (h' : 255 ∉ s) : ¬Mismeasured s := by
  rintro (⟨hmem, -⟩ | ⟨hmem, -⟩)
  · exact h (List.mem_of_getElem? hmem)
  · exact h' (List.mem_of_getElem? hmem)

/-- The length of a cut text, by its sign. -/
def cutTextLength (n : Nat) : Nat := if 2 ^ 31 ≤ n then 2 ^ 32 - n else n

theorem declared_cutText (p q r a b c d : UInt8) (s : Bytes) :
    declared (6 :: p :: q :: r :: a :: b :: c :: d :: s) =
      if cutTextLength (bigEndian [a, b, c, d]) > kMaxMessageBytes - 8 then .refused
      else .message (8 + cutTextLength (bigEndian [a, b, c, d])) false := by
  rw [← toNat_read32 6 p q r a b c d s, cutTextLength]
  generalize hs : 6 :: p :: q :: r :: a :: b :: c :: d :: s = pending
  have htype : (byteAt pending 0).toNat = 6 := by
    rw [← hs]
    rfl
  have hlong : ¬pending.length < 8 := by
    rw [← hs]
    simp
  rw [declared, htype]
  simp only [signBit_iff, if_neg hlong]
  rfl

/-- The length of a message is known from its first bytes. -/
theorem declared_of_message {m : Bytes} (h : ClientMessage m) (hm : ¬Mismeasured m)
    (hle : m.length ≤ kMaxMessageBytes) (q : Bytes) :
    declared (m ++ q) = .message m.length (decide (byteAt m 0 ∈ displayTypes)) := by
  have hlong : ∀ {n} (s : Bytes), n ≤ s.length → ¬(s ++ q).length < n := fun s hs =>
    length_append_not_lt (not_lt.mpr hs)
  cases h with
  | setPixelFormat hlen => simp only [List.length_cons, hlen]; rfl
  | @setEncodings pad hi lo encodings hlen =>
    have hcount := toNat_read16 2 pad hi lo (encodings ++ q)
    show (if (2 :: pad :: hi :: lo :: encodings ++ q).length < 4 then Framing.more
      else .message (4 + (read16 (2 :: pad :: hi :: lo :: (encodings ++ q)) 2).toNat * 4) true) = _
    rw [if_neg (hlong _ (by simp)), hcount, ← Nat.mul_comm 4, ← hlen, Nat.add_comm]
    rfl
  | updateRequest hlen => simp only [List.length_cons, hlen]; rfl
  | keyEvent hlen => simp only [List.length_cons, hlen]; rfl
  | @pointerEvent buttons rest hbuttons hlen =>
    show (if (5 :: buttons :: rest ++ q).length < 2 then Framing.more
      else .message (if buttons &&& 0x80 ≠ 0 then 7 else 6) false) = _
    rw [if_neg (hlong _ (by simp)), if_neg ((buttonBit_iff buttons).not.mpr (by omega))]
    simp only [List.length_cons, hlen]
    rfl
  | @extendedPointerEvent buttons rest hbuttons hlen =>
    show (if (5 :: buttons :: rest ++ q).length < 2 then Framing.more
      else .message (if buttons &&& 0x80 ≠ 0 then 7 else 6) false) = _
    rw [if_neg (hlong _ (by simp)), if_pos ((buttonBit_iff buttons).mpr hbuttons)]
    simp only [List.length_cons, hlen]
    rfl
  | @cutText _ _ _ a b c d text hsign hlen =>
    have hpayload : cutTextLength (bigEndian [a, b, c, d]) = text.length := by
      rw [cutTextLength, if_neg (not_le.mpr hsign), hlen]
    simp only [List.length_cons] at hle
    simp only [List.cons_append, declared_cutText, hpayload, List.length_cons]
    rw [if_neg (by omega), Nat.add_comm 8]
    rfl
  | @extendedCutText _ _ _ a b c d data hsign hlen =>
    have hpayload : cutTextLength (bigEndian [a, b, c, d]) = data.length := by
      rw [cutTextLength, if_pos hsign, hlen]
    simp only [List.length_cons] at hle
    simp only [List.cons_append, declared_cutText, hpayload, List.length_cons]
    rw [if_neg (by omega), Nat.add_comm 8]
    rfl
  | continuousUpdates hlen => simp only [List.length_cons, hlen]; rfl
  | @fence flags count payload hflags hlen =>
    have hcount : byteAt (248 :: (flags ++ count :: payload) ++ q) 8 = count := by
      rw [byteAt, List.cons_append, List.getElem?_cons_succ, List.append_assoc,
        List.getElem?_append_right (by omega), hflags]
      rfl
    show (if (248 :: (flags ++ count :: payload) ++ q).length < 9 then Framing.more
      else .message (9 + (byteAt (248 :: (flags ++ count :: payload) ++ q) 8).toNat) true) = _
    rw [if_neg (hlong _ (by simp [hflags]; omega)), hcount, ← hlen]
    simp only [List.length_cons, List.length_append, hflags]
    congr 1
    omega
  | power hlen => simp only [List.length_cons, hlen]; rfl
  | @setDesktopSize size screens pad layout hsize hlen =>
    -- The filter takes one screen for granted.
    have hscreens : screens = 1 := by
      by_contra hne
      refine hm (.inl ⟨rfl, screens, ?_, hne⟩)
      rw [List.getElem?_cons_succ, List.getElem?_append_right (by omega), hsize]
      rfl
    simp only [List.length_cons, List.length_append, hsize, hlen, hscreens]
    rfl
  | qemuKeyEvent hlen => simp only [List.length_cons, hlen]; rfl
  | qemuAudio _ => exact absurd (.inr ⟨rfl, 1, rfl, by decide⟩) hm
  | qemuAudioFormat _ => exact absurd (.inr ⟨rfl, 1, rfl, by decide⟩) hm

/-- A message over the limit is a cut text, and is refused at its first bytes. -/
theorem declared_of_long {m : Bytes} (h : ClientMessage m) (hlong : kMaxMessageBytes < m.length)
    (s : Bytes) : declared (m.take 8 ++ s) = .refused := by
  have hmax : kMaxMessageBytes = 262144 := rfl
  cases h with
  | @setEncodings pad hi lo encodings hlen =>
    have hlt := bigEndian_lt [hi, lo]
    simp only [List.length_cons, List.length_nil] at hlong hlt
    omega
  | @cutText _ _ _ a b c d text hsign hlen =>
    have hpayload : cutTextLength (bigEndian [a, b, c, d]) = text.length := by
      rw [cutTextLength, if_neg (not_le.mpr hsign), hlen]
    simp only [List.length_cons] at hlong
    simp only [List.take_succ_cons, List.take_zero, List.cons_append, declared_cutText, hpayload]
    exact if_pos (by omega)
  | @extendedCutText _ _ _ a b c d data hsign hlen =>
    have hpayload : cutTextLength (bigEndian [a, b, c, d]) = data.length := by
      rw [cutTextLength, if_pos hsign, hlen]
    simp only [List.length_cons] at hlong
    simp only [List.take_succ_cons, List.take_zero, List.cons_append, declared_cutText, hpayload]
    exact if_pos (by omega)
  | @fence flags count payload hflags hlen =>
    have hlt := count.toNat_lt
    simp only [List.length_cons, List.length_append] at hlong
    omega
  | @setDesktopSize size screens pad layout hsize hlen =>
    have hlt := screens.toNat_lt
    simp only [List.length_cons, List.length_append] at hlong
    omega
  -- The others cannot be that long.
  | _ =>
    simp only [List.length_cons, List.length_nil] at hlong
    omega

/-- A list of some length begins with as many elements. -/
theorem exists_cons_of_lt {s : Bytes} {n : Nat} (h : n < s.length) :
    ∃ first rest, s = first :: rest ∧ n ≤ rest.length := by
  cases s with
  | nil => exact absurd h (Nat.not_lt_zero n)
  | cons first rest => exact ⟨first, rest, rfl, Nat.lt_succ_iff.mp h⟩

/-- Or with a byte behind as many. -/
theorem exists_split_of_lt {s : Bytes} {n : Nat} (h : n < s.length) :
    ∃ front byte rest, s = front ++ byte :: rest ∧ front.length = n := by
  obtain ⟨byte, rest, hdrop, -⟩ : ∃ byte rest, s.drop n = byte :: rest ∧ 0 ≤ rest.length :=
    exists_cons_of_lt (by rw [List.length_drop]; omega)
  refine ⟨s.take n, byte, rest, ?_, List.length_take_of_le h.le⟩
  rw [← hdrop, List.take_append_drop]

/-- What a cut text begins with behind its type. -/
theorem exists_cutText_of_le {s : Bytes} (h : 7 ≤ s.length) :
    ∃ p q r a b c d rest, s = p :: q :: r :: a :: b :: c :: d :: rest := by
  obtain ⟨p, s, rfl, hp⟩ := exists_cons_of_lt h
  obtain ⟨q, s, rfl, hq⟩ := exists_cons_of_lt hp
  obtain ⟨r, s, rfl, hr⟩ := exists_cons_of_lt hq
  obtain ⟨a, s, rfl, ha⟩ := exists_cons_of_lt hr
  obtain ⟨b, s, rfl, hb⟩ := exists_cons_of_lt ha
  obtain ⟨c, s, rfl, hc⟩ := exists_cons_of_lt hb
  obtain ⟨d, s, rfl, -⟩ := exists_cons_of_lt hc
  exact ⟨p, q, r, a, b, c, d, s, rfl⟩

/-- As many bytes as a cut text has to have make one. -/
theorem message_of_cutText (p q r : UInt8) {a b c d : UInt8} {text : Bytes}
    (h : text.length = cutTextLength (bigEndian [a, b, c, d])) :
    ClientMessage (6 :: p :: q :: r :: a :: b :: c :: d :: text) := by
  by_cases hsign : 2 ^ 31 ≤ bigEndian [a, b, c, d]
  · rw [cutTextLength, if_pos hsign] at h
    exact .extendedCutText hsign h
  · rw [cutTextLength, if_neg hsign] at h
    exact .cutText (not_le.mp hsign) h

/-- What the filter frames is a message. -/
theorem message_of_declared {s : Bytes} (hs : ¬Mismeasured s) {size : Nat} {display : Bool}
    (h : declared s = .message size display) (hle : size ≤ s.length) :
    ClientMessage (s.take size) := by
  obtain ⟨first, rest, rfl, -⟩ := exists_cons_of_lt ((declared_pos h).trans_le hle)
  have htype : ∀ type : UInt8, (byteAt (first :: rest) 0).toNat = type.toNat → first = type :=
    fun type ht => UInt8.toNat_inj.mp ht
  have hfixed : ∀ {n}, n + 1 ≤ (first :: rest).length → (rest.take n).length = n := fun hn =>
    List.length_take_of_le (Nat.le_of_succ_le_succ hn)
  have hdeclared := h
  unfold declared at h
  split at h
  case h_1 ht =>
    -- SetPixelFormat
    obtain rfl := htype 0 ht
    obtain ⟨rfl, -⟩ := Framing.message.inj h
    exact .setPixelFormat (hfixed hle)
  case h_2 ht =>
    -- SetEncodings: the count stands in the third and fourth byte.
    obtain rfl := htype 2 ht
    split_ifs at h with hshort
    rw [List.length_cons] at hshort
    obtain ⟨pad, rest, rfl, hpad⟩ := exists_cons_of_lt (by omega : 2 < rest.length)
    obtain ⟨hi, rest, rfl, hhi⟩ := exists_cons_of_lt hpad
    obtain ⟨lo, rest, rfl, -⟩ := exists_cons_of_lt hhi
    rw [toNat_read16] at h
    obtain ⟨rfl, -⟩ := Framing.message.inj h
    simp only [List.length_cons] at hle
    rw [Nat.add_comm 4]
    refine .setEncodings ?_
    rw [List.length_take_of_le (by omega), Nat.mul_comm]
  case h_3 ht =>
    -- FramebufferUpdateRequest
    obtain rfl := htype 3 ht
    obtain ⟨rfl, -⟩ := Framing.message.inj h
    exact .updateRequest (hfixed hle)
  case h_4 ht =>
    -- KeyEvent
    obtain rfl := htype 4 ht
    obtain ⟨rfl, -⟩ := Framing.message.inj h
    exact .keyEvent (hfixed hle)
  case h_5 ht =>
    -- PointerEvent: the top bit of the buttons adds a byte.
    obtain rfl := htype 5 ht
    split_ifs at h with hshort hbuttons
    all_goals
      rw [List.length_cons] at hshort
      obtain ⟨buttons, rest, rfl, -⟩ := exists_cons_of_lt (by omega : 0 < rest.length)
      obtain ⟨rfl, -⟩ := Framing.message.inj h
      simp only [List.length_cons] at hle
    · have htake : (rest.take 5).length = 5 := List.length_take_of_le (by omega)
      exact .extendedPointerEvent ((buttonBit_iff buttons).mp hbuttons) htake
    · have htake : (rest.take 4).length = 4 := List.length_take_of_le (by omega)
      exact .pointerEvent (not_le.mp ((buttonBit_iff buttons).not.mp hbuttons)) htake
  case h_6 ht =>
    -- ClientCutText, whose length is signed.
    obtain rfl := htype 6 ht
    by_cases hshort : (6 :: rest).length < 8
    · rw [if_pos hshort] at h
      cases h
    rw [List.length_cons] at hshort
    obtain ⟨p, q, r, a, b, c, d, rest, rfl⟩ := exists_cutText_of_le (by omega : 7 ≤ rest.length)
    have hcut := declared_cutText p q r a b c d rest
    rw [hdeclared] at hcut
    split_ifs at hcut with hlong
    obtain ⟨rfl, -⟩ := Framing.message.inj hcut
    simp only [List.length_cons] at hle
    have htake : (rest.take (cutTextLength (bigEndian [a, b, c, d]))).length =
        cutTextLength (bigEndian [a, b, c, d]) := List.length_take_of_le (by omega)
    rw [Nat.add_comm 8]
    exact message_of_cutText p q r htake
  case h_7 ht =>
    -- EnableContinuousUpdates
    obtain rfl := htype 150 ht
    obtain ⟨rfl, -⟩ := Framing.message.inj h
    exact .continuousUpdates (hfixed hle)
  case h_8 ht =>
    -- Fence: the count is the ninth byte.
    obtain rfl := htype 248 ht
    split_ifs at h with hshort
    rw [List.length_cons] at hshort
    obtain ⟨flags, count, payload, rfl, hflags⟩ :=
      exists_split_of_lt (by omega : 7 < rest.length)
    have hbyte : byteAt (248 :: (flags ++ count :: payload)) 8 = count := by
      rw [byteAt, List.getElem?_cons_succ, List.getElem?_append_right (by omega), hflags]
      rfl
    rw [hbyte] at h
    obtain ⟨rfl, -⟩ := Framing.message.inj h
    simp only [List.length_cons, List.length_append, hflags] at hle
    have htake : (248 :: (flags ++ count :: payload)).take (9 + count.toNat) =
        248 :: (flags ++ count :: payload.take count.toNat) := by
      have hmore : 8 + count.toNat - flags.length = count.toNat + 1 := by omega
      rw [Nat.add_right_comm 8 1, List.take_succ_cons, List.take_append,
        List.take_of_length_le (by omega), hmore, List.take_succ_cons]
    rw [htake]
    exact .fence hflags (List.length_take_of_le (by omega))
  case h_9 ht =>
    -- xvp
    obtain rfl := htype 250 ht
    obtain ⟨rfl, -⟩ := Framing.message.inj h
    exact .power (hfixed hle)
  case h_10 ht =>
    -- SetDesktopSize: 24 bytes is one screen.
    obtain rfl := htype 251 ht
    obtain ⟨rfl, -⟩ := Framing.message.inj h
    rw [List.length_cons] at hle
    obtain ⟨head, screens, layout, rfl, hsize⟩ := exists_split_of_lt (by omega : 5 < rest.length)
    rw [List.length_append, List.length_cons, hsize] at hle
    obtain ⟨pad, layout, rfl, hlong⟩ := exists_cons_of_lt (by omega : 16 < layout.length)
    have hone : screens = 1 := by
      by_contra hne
      refine hs (.inl ⟨rfl, screens, ?_, hne⟩)
      rw [List.getElem?_cons_succ, List.getElem?_append_right (by omega), hsize]
      rfl
    have htake : (251 :: (head ++ screens :: pad :: layout)).take 24 =
        251 :: (head ++ screens :: pad :: layout.take 16) := by
      rw [List.take_succ_cons, List.take_append, List.take_of_length_le (by omega), hsize]
      rfl
    rw [htake, hone]
    exact .setDesktopSize hsize (List.length_take_of_le hlong)
  case h_11 ht =>
    -- QEMU: twelve bytes is the extended key event.
    obtain rfl := htype 255 ht
    obtain ⟨rfl, -⟩ := Framing.message.inj h
    rw [List.length_cons] at hle
    obtain ⟨kind, rest, rfl, hrest⟩ := exists_cons_of_lt (by omega : 10 < rest.length)
    have hkey : kind = 0 := by
      by_contra hne
      exact hs (.inr ⟨rfl, kind, rfl, hne⟩)
    rw [hkey]
    exact .qemuKeyEvent (List.length_take_of_le hrest)
  case h_12 => cases h

/-- A size that is known is within the limit. -/
theorem declared_le {s : Bytes} {size : Nat} {display : Bool}
    (h : declared s = .message size display) : size ≤ kMaxMessageBytes := by
  have hmax : kMaxMessageBytes = 262144 := rfl
  unfold declared at h
  split at h
  case h_2 =>
    split_ifs at h
    obtain ⟨rfl, -⟩ := Framing.message.inj h
    have hlt := (read16 s 2).toNat_lt
    omega
  case h_5 =>
    split_ifs at h
    all_goals
      obtain ⟨rfl, -⟩ := Framing.message.inj h
      omega
  case h_6 =>
    dsimp only at h
    split_ifs at h
    all_goals
      obtain ⟨rfl, -⟩ := Framing.message.inj h
      omega
  case h_8 =>
    split_ifs at h
    obtain ⟨rfl, -⟩ := Framing.message.inj h
    have hlt := (byteAt s 8).toNat_lt
    omega
  case h_12 => cases h
  all_goals
    obtain ⟨rfl, -⟩ := Framing.message.inj h
    omega

/-- The types of the messages the filter takes. -/
def clientTypes : List UInt8 := [0, 2, 3, 4, 5, 6, 150, 248, 250, 251, 255]

/-- A message of none of these types begins here. -/
def Unsupported (s : Bytes) : Prop := ∃ type rest, s = type :: rest ∧ type ∉ clientTypes

/-- A message over the limit begins here, as its first eight bytes tell. -/
def TooLong (s : Bytes) : Prop :=
  ∃ m, ClientMessage m ∧ kMaxMessageBytes < m.length ∧ m.take 8 <+: s

theorem declared_of_unsupported {s : Bytes} (h : Unsupported s) : declared s = .refused := by
  obtain ⟨type, rest, rfl, htype⟩ := h
  have hnone : (byteAt (type :: rest) 0).toNat ∉ clientTypes.map UInt8.toNat := fun hmem => by
    obtain ⟨supported, hsupported, heq⟩ := List.mem_map.mp hmem
    rw [UInt8.toNat_inj.mp heq] at hsupported
    exact htype hsupported
  unfold declared
  split
  case h_12 => rfl
  all_goals
    rename_i ht
    rw [ht] at hnone
    exact absurd (by decide) hnone

/-- A message of a type that is let through is refused for its length only. -/
theorem tooLong_of_declared {type : UInt8} {rest : Bytes} (htype : type ∈ clientTypes)
    (h : declared (type :: rest) = .refused) : TooLong (type :: rest) := by
  simp only [clientTypes, List.mem_cons, List.not_mem_nil, or_false] at htype
  rcases htype with rfl | rfl | rfl | rfl | rfl | rfl | rfl | rfl | rfl | rfl | rfl
  case inr.inr.inr.inr.inr.inl =>
    by_cases hshort : (6 :: rest).length < 8
    · have hmore : declared (6 :: rest) = .more := if_pos hshort
      rw [hmore] at h
      cases h
    rw [List.length_cons] at hshort
    obtain ⟨p, q, r, a, b, c, d, rest, rfl⟩ := exists_cutText_of_le (by omega : 7 ≤ rest.length)
    rw [declared_cutText] at h
    split_ifs at h with hlong
    -- Whatever text would follow, it is over the limit.
    obtain ⟨text, htext⟩ : ∃ text : Bytes,
        text.length = cutTextLength (bigEndian [a, b, c, d]) :=
      ⟨List.replicate _ 0, List.length_replicate⟩
    refine ⟨6 :: p :: q :: r :: a :: b :: c :: d :: text, ?_, ?_, rest, rfl⟩
    · exact message_of_cutText p q r htext
    · simp only [List.length_cons]
      omega
  case inl | inr.inr.inl | inr.inr.inr.inl | inr.inr.inr.inr.inr.inr.inl |
      inr.inr.inr.inr.inr.inr.inr.inr.inl | inr.inr.inr.inr.inr.inr.inr.inr.inr.inl |
      inr.inr.inr.inr.inr.inr.inr.inr.inr.inr =>
    change Framing.message _ _ = _ at h
    cases h
  all_goals
    change (if _ then Framing.more else Framing.message _ _) = _ at h
    split_ifs at h

theorem framing_refused_iff (s : Bytes) : framing s = .refused ↔ Unsupported s ∨ TooLong s := by
  constructor
  · intro h
    have hdeclared : declared s = .refused := by
      rcases hd : declared s with - | - | ⟨size, display⟩
      · rw [framing, hd] at h
        cases h
      · rfl
      · rw [framing_of_declared hd, if_neg (not_lt.mpr (declared_le hd))] at h
        split_ifs at h
    obtain ⟨type, rest, rfl⟩ : ∃ type rest, s = type :: rest := by
      cases s with
      | nil => exact absurd h framing_ne_refused_nil
      | cons type rest => exact ⟨type, rest, rfl⟩
    by_cases htype : type ∈ clientTypes
    · exact .inr (tooLong_of_declared htype hdeclared)
    · exact .inl ⟨type, rest, rfl, htype⟩
  · rintro (htype | ⟨m, hm, hlong, s, rfl⟩)
    · rw [framing, declared_of_unsupported htype]
    · rw [framing, declared_of_long hm hlong]

/-- A message is framed as it is. -/
theorem framing_of_message {m : Bytes} (h : ClientMessage m) (hm : ¬Mismeasured m)
    (hle : m.length ≤ kMaxMessageBytes) (s : Bytes) :
    framing (m ++ s) = .message m.length (decide (byteAt m 0 ∈ displayTypes)) := by
  rw [framing_of_declared (declared_of_message h hm hle s), if_neg (not_lt.mpr hle),
    if_neg (length_append_not_lt (lt_irrefl _))]

/-- Where no message is complete none is framed. -/
theorem framing_of_last {rest : Bytes} (hlast : ∀ m, ClientMessage m → ¬m <+: rest)
    (hrest : ¬Mismeasured rest) : framing rest = .more ∨ framing rest = .refused := by
  rcases h : framing rest with - | - | ⟨size, display⟩
  · exact .inl rfl
  · exact .inr rfl
  · obtain ⟨-, hle, -, hdeclared⟩ := framing_message h
    exact absurd (List.take_prefix size rest) (hlast _ (message_of_declared hrest hdeclared hle))

/-! ### Streams and what the filter makes of them -/

/-- A reading without messages of another length than the filter takes. -/
structure MeasuredAlike (messages : List Bytes) (rest : Bytes) : Prop where
  messages : ∀ m ∈ messages, ¬Mismeasured m
  rest : ¬Mismeasured rest

/-- A reading that meets a message which is not let through. -/
def Meets (messages : List Bytes) (rest : Bytes) : Prop :=
  (∃ m ∈ messages, kMaxMessageBytes < m.length) ∨ Unsupported rest ∨ TooLong rest

/-- **The filter reads a stream as the protocol does**, up to a message that it
refuses. -/
theorem parse_of_reads {s : Bytes} {messages : List Bytes} {rest : Bytes}
    (h : Rfb.Reads s messages rest) (hm : MeasuredAlike messages rest) :
    (parse s).refused = true ∧ Meets messages rest ∨
      parse s = ⟨messages.map fun m => (m, decide (byteAt m 0 ∈ displayTypes)), rest, false⟩ ∧
        ¬Meets messages rest := by
  induction messages generalizing s with
  | nil =>
    obtain ⟨rfl, hlast⟩ := Rfb.Reads.nil_iff.mp h
    -- Nothing is left but what no message begins.
    rcases framing_of_last hlast hm.rest with hmore | hrefused
    · refine .inr ⟨parse_more hmore, ?_⟩
      rintro (⟨m, hmem, -⟩ | hmeets)
      · exact List.not_mem_nil hmem
      · rw [(framing_refused_iff rest).mpr hmeets] at hmore
        cases hmore
    · refine .inl ⟨?_, .inr ((framing_refused_iff rest).mp hrefused)⟩
      rw [parse_refused hrefused]
  | cons m messages ih =>
    have hmessage := h.message m List.mem_cons_self
    have htail := h.tail
    have hs : s = m ++ (messages.flatten ++ rest) := by
      rw [← h.flatten, List.flatten_cons, List.append_assoc]
    by_cases hle : m.length ≤ kMaxMessageBytes
    · -- The first message is framed as it is, and the reading goes on behind it.
      have hframing := framing_of_message hmessage (hm.messages m List.mem_cons_self) hle
        (messages.flatten ++ rest)
      have hmeets : Meets (m :: messages) rest ↔ Meets messages rest := by
        unfold Meets
        simp [not_lt.mpr hle]
      rw [hs, parse_message hframing, List.take_left, List.drop_left, hmeets]
      rcases ih htail ⟨fun m' hm' => hm.messages m' (List.mem_cons_of_mem m hm'), hm.rest⟩ with
        ⟨hrefused, hmeets⟩ | ⟨hparse, hmeets⟩
      · exact .inl ⟨hrefused, hmeets⟩
      · rw [hparse]
        exact .inr ⟨rfl, hmeets⟩
    · rw [not_le] at hle
      have hrefused : framing s = .refused := by
        have hsplit : s = m.take 8 ++ (m.drop 8 ++ (messages.flatten ++ rest)) := by
          rw [← List.append_assoc, List.take_append_drop, hs]
        rw [hsplit, framing, declared_of_long hmessage hle]
      rw [parse_refused hrefused]
      exact .inl ⟨rfl, .inl ⟨m, List.mem_cons_self, hle⟩⟩

/-! ### What is forwarded -/

theorem forwarded_cons_display (input : Bool) (message : Bytes) (messages : List (Bytes × Bool)) :
    forwarded input ((message, true) :: messages) = message :: forwarded input messages := rfl

/-- What passes of the messages of a reading. -/
def passing (input : Bool) (messages : List Bytes) : List Bytes :=
  messages.filter fun m => byteAt m 0 ∈ displayTypes || input

theorem forwarded_map (input : Bool) (messages : List Bytes) :
    forwarded input (messages.map fun m => (m, decide (byteAt m 0 ∈ displayTypes))) =
      passing input messages := by
  rw [forwarded, List.filter_map, List.map_map, passing]
  exact List.map_id _

namespace RfbInputFilter

/-- What the viewer's loop writes: the output of each chunk, up to the first
that is refused. -/
def sent (f : RfbInputFilter) : List (Bytes × Bool) → Bytes
  | [] => []
  | (data, input) :: pushes =>
    match f.push data input with
    | (false, _, _) => []
    | (true, output, f) => output ++ sent f pushes

/-- Zeros are SetPixelFormat messages, one after another. -/
theorem framing_zeros (n : Nat) :
    framing (List.replicate n 0) = if n < 20 then .more else .message 20 true := by
  have hzero : byteAt (List.replicate n 0) 0 = 0 := by
    cases n with
    | zero => rfl
    | succ n => rfl
  have hd : declared (List.replicate n 0) = .message 20 true := by
    rw [declared, hzero]
    rfl
  rw [framing_of_declared hd, if_neg (by decide), List.length_replicate]

theorem parse_zeros (n : Nat) : (parse (List.replicate n 0)).refused = false := by
  induction n using Nat.strong_induction_on with
  | _ n ih =>
    have hframing := framing_zeros n
    split_ifs at hframing with hlt
    · rw [parse_more hframing]
    · rw [parse_message hframing, List.drop_replicate]
      exact ih _ (by omega)

/-- The handshake and one byte. -/
theorem push_zeros_first :
    push {} (List.replicate 15 0) false =
      (true, List.replicate 14 0, { handshakeRemaining := 0, pending := [0] }) := by
  decide +kernel

/-- Behind it a chunk of the whole cap is too much. -/
theorem push_cap {data : Bytes} (h : data.length = kMaxMessageBytes) :
    (push { handshakeRemaining := 0, pending := [0] } data false).1 = false := by
  rw [push_refused_iff ⟨parse_more (by decide), by decide⟩]
  refine .inl ?_
  rw [List.drop_zero, h]
  exact Nat.lt_add_of_pos_left Nat.one_pos

/-- One byte less is taken, and the first message in it forwarded. -/
theorem push_zeros_less {n : Nat} (hn : n + 1 = kMaxMessageBytes) :
    ∃ output f, push { handshakeRemaining := 0, pending := [0] } (List.replicate n 0) false =
      (true, output, f) ∧ output ≠ [] := by
  have hlarge : ¬n + 1 < 20 := by rw [hn]; decide
  have hpending : [0] ++ List.replicate n (0 : UInt8) = List.replicate (n + 1) 0 := rfl
  have hframing := framing_zeros (n + 1)
  have hfits : ¬n > kMaxMessageBytes - [(0 : UInt8)].length := by
    rw [← hn, List.length_singleton]
    omega
  rw [if_neg hlarge] at hframing
  rw [push_eq]
  dsimp only
  rw [List.drop_zero, List.length_replicate, if_neg hfits, hpending, parse_zeros]
  refine ⟨_, _, rfl, ?_⟩
  rw [parse_message hframing, List.take_zero, List.nil_append, forwarded_cons_display,
    List.flatten_cons, List.take_replicate, Nat.min_eq_left (Nat.not_lt.mp hlarge)]
  exact fun hnil => absurd (List.append_eq_nil_iff.mp hnil).1 (by decide)

end RfbInputFilter

end UAgent
