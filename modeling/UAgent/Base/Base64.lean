/-
UAgent/Base/Base64.lean

Base64 texts: three bytes in four characters of six bits, the last group filled
up with `=`.  What is written of bytes is written of their whole triples and of
the rest (`encode_append`).
-/
import UAgent.Base.Bytes
import Mathlib.Tactic.IntervalCases

namespace Base64

open Bytes

/-! ### Characters -/

def alphabet : Bytes :=
  lit "ABCDEFGHIJKLMNOPQRSTUVWXYZabcdefghijklmnopqrstuvwxyz0123456789+/"

/-- What fills up the last group. -/
def pad : UInt8 := ch '='

/-- The character of six bits. -/
def char (v : UInt8) : UInt8 := alphabet.getD v.toNat pad

/-- The six bits of a character. -/
def value? (c : UInt8) : Option UInt8 := (alphabet.idxOf? c).map Nat.toUInt8

theorem value?_char {v : UInt8} (h : v < 64) : value? (char v) = some v := by
  have hall : ∀ v : Fin 64, value? (char v.val.toUInt8) = some v.val.toUInt8 := by decide
  have hlt : v.toNat < 64 := h
  have hv := hall ⟨v.toNat, hlt⟩
  rwa [Nat.toUInt8, UInt8.ofNat_toNat] at hv

theorem char_ne_pad {v : UInt8} (h : v < 64) : char v ≠ pad := by
  have hall : ∀ v : Fin 64, char v.val.toUInt8 ≠ pad := by decide
  have hlt : v.toNat < 64 := h
  have hv := hall ⟨v.toNat, hlt⟩
  rwa [Nat.toUInt8, UInt8.ofNat_toNat] at hv

theorem value?_isSome {c : UInt8} : (value? c).isSome ↔ c ∈ alphabet := by
  rw [value?, Option.isSome_map, List.isSome_idxOf?]

theorem pad_not_mem : pad ∉ alphabet := by decide

/-! ### Encoding -/

/-- The four characters of three bytes. -/
def triple (x y z : UInt8) : Bytes :=
  [char (x >>> 2), char ((x &&& 3) <<< 4 ||| y >>> 4), char ((y &&& 15) <<< 2 ||| z >>> 6),
    char (z &&& 63)]

/-- The text of some bytes. -/
def encode : Bytes → Bytes
  | x :: y :: z :: rest => triple x y z ++ encode rest
  | [x, y] =>
    [char (x >>> 2), char ((x &&& 3) <<< 4 ||| y >>> 4), char ((y &&& 15) <<< 2), pad]
  | [x] => [char (x >>> 2), char ((x &&& 3) <<< 4), pad, pad]
  | [] => []

/-- Whole triples are written by themselves. -/
theorem encode_append (a b : Bytes) (h : a.length % 3 = 0) :
    encode (a ++ b) = encode a ++ encode b := by
  induction a using encode.induct with
  | case1 x y z rest ih =>
    have hrest : rest.length % 3 = 0 := by
      simp only [List.length_cons] at h
      omega
    rw [List.cons_append, List.cons_append, List.cons_append, encode, encode, ih hrest,
      List.append_assoc]
  | case2 x y => exact absurd h (by simp)
  | case3 x => exact absurd h (by simp)
  | case4 => rfl

theorem length_encode (s : Bytes) : (encode s).length = 4 * ((s.length + 2) / 3) := by
  induction s using encode.induct with
  | case1 x y z rest ih =>
    rw [encode, List.length_append, ih]
    simp only [triple, List.length_cons, List.length_nil]
    omega
  | case2 x y => simp [encode]
  | case3 x => simp [encode]
  | case4 => rfl

/-! ### Groups of four -/

/-- The bytes of a group, the last of its text or not; only the last may be
filled up, from its end. -/
def groupBytes (last : Bool) (a b c d : UInt8) : Option Bytes :=
  match value? a, value? b, (if c = pad then some 0 else value? c),
      (if d = pad then some 0 else value? d) with
  | some x, some y, some z, some w =>
    if (c = pad ∧ d ≠ pad) ∨ (last = false ∧ (c = pad ∨ d = pad)) then none
    else
      some ([x <<< 2 ||| y >>> 4] ++ (if c = pad then [] else [y <<< 4 ||| z >>> 2]) ++
        if d = pad then [] else [z <<< 6 ||| w])
  | _, _, _, _ => none

/-- The group with its four characters read one after the other. -/
theorem groupBytes_eq (last : Bool) (a b c d : UInt8) :
    groupBytes last a b c d =
      (value? a).bind fun x => (value? b).bind fun y =>
        (if c = pad then some 0 else value? c).bind fun z =>
          (if d = pad then some 0 else value? d).bind fun w =>
            if (c = pad ∧ d ≠ pad) ∨ (last = false ∧ (c = pad ∨ d = pad)) then none
            else
              some ([x <<< 2 ||| y >>> 4] ++ (if c = pad then [] else [y <<< 4 ||| z >>> 2]) ++
                if d = pad then [] else [z <<< 6 ||| w]) := by
  unfold groupBytes
  cases value? a <;> cases value? b <;> cases (if c = pad then some 0 else value? c) <;>
    cases (if d = pad then some 0 else value? d) <;> rfl

theorem groupBytes_alphabet {last : Bool} {a b c d : UInt8} (hc : c ≠ pad) (hd : d ≠ pad) :
    (groupBytes last a b c d).isSome ↔
      a ∈ alphabet ∧ b ∈ alphabet ∧ c ∈ alphabet ∧ d ∈ alphabet := by
  rw [← value?_isSome, ← value?_isSome, ← value?_isSome, ← value?_isSome]
  simp only [groupBytes_eq, if_neg hc, if_neg hd]
  rcases value? a with - | x <;> rcases value? b with - | y <;> rcases value? c with - | z <;>
    rcases value? d with - | w <;> simp [hc, hd]

/-- A group filled up where it may not be. -/
theorem groupBytes_misfilled {last : Bool} {a b c d : UInt8}
    (h : (c = pad ∧ d ≠ pad) ∨ (last = false ∧ (c = pad ∨ d = pad))) :
    groupBytes last a b c d = none := by
  simp only [groupBytes_eq, if_pos h, Option.bind_fun_none]

theorem groupBytes_pad {a b c d : UInt8} (hpad : c = pad ∨ d = pad) :
    groupBytes false a b c d = none :=
  groupBytes_misfilled (.inr ⟨rfl, hpad⟩)

/-- A filled up group: `=` behind three characters, or twice behind two. -/
theorem groupBytes_last {a b c d : UInt8} (hd : d = pad) :
    (groupBytes true a b c d).isSome ↔
      a ∈ alphabet ∧ b ∈ alphabet ∧ (c = pad ∨ c ∈ alphabet) := by
  rw [← value?_isSome, ← value?_isSome, ← value?_isSome]
  simp only [groupBytes_eq, if_pos hd]
  by_cases hc : c = pad
  · rcases value? a with - | x <;> rcases value? b with - | y <;> simp [hc, hd]
  · rcases value? a with - | x <;> rcases value? b with - | y <;> rcases value? c with - | z <;>
      simp [hc, hd]

theorem length_of_groupBytes {last : Bool} {a b c d : UInt8} {bytes : Bytes}
    (h : groupBytes last a b c d = some bytes) :
    bytes.length + (if c = pad then 1 else 0) + (if d = pad then 1 else 0) = 3 := by
  simp only [groupBytes_eq, Option.bind_eq_some_iff] at h
  obtain ⟨x, -, y, -, z, -, w, -, h⟩ := h
  split_ifs at h with hbad hc hd hd
  · rw [← Option.some.inj h]
    simp [hc, hd]
  · exact absurd (.inl ⟨hc, hd⟩) hbad
  · rw [← Option.some.inj h]
    simp [hc, hd]
  · rw [← Option.some.inj h]
    simp [hc, hd]

/-! ### Reading back -/

theorem lt_of_and {v : UInt8} (h : v &&& 63 = v) : v < 64 := by
  rw [← h, UInt8.lt_iff_toNat_lt, UInt8.toNat_and]
  exact Nat.lt_succ_of_le Nat.and_le_right

/-- The sextets of three bytes, and the bytes they are put together to: bit by
bit. -/
theorem sextets (x y z : UInt8) :
    (x >>> 2 < 64 ∧ (x &&& 3) <<< 4 ||| y >>> 4 < 64 ∧ (y &&& 15) <<< 2 ||| z >>> 6 < 64 ∧
        z &&& 63 < 64) ∧
      (x >>> 2) <<< 2 ||| ((x &&& 3) <<< 4 ||| y >>> 4) >>> 4 = x ∧
        ((x &&& 3) <<< 4 ||| y >>> 4) <<< 4 ||| ((y &&& 15) <<< 2 ||| z >>> 6) >>> 2 = y ∧
          ((y &&& 15) <<< 2 ||| z >>> 6) <<< 6 ||| z &&& 63 = z := by
  refine ⟨⟨lt_of_and ?_, lt_of_and ?_, lt_of_and ?_, lt_of_and ?_⟩, ?_, ?_, ?_⟩ <;>
  · apply UInt8.toBitVec_inj.mp
    ext i hi
    interval_cases i <;> simp

/-- A triple is read back. -/
theorem groupBytes_triple (last : Bool) (x y z : UInt8) :
    groupBytes last (char (x >>> 2)) (char ((x &&& 3) <<< 4 ||| y >>> 4))
      (char ((y &&& 15) <<< 2 ||| z >>> 6)) (char (z &&& 63)) = some [x, y, z] := by
  obtain ⟨⟨h₁, h₂, h₃, h₄⟩, hx, hy, hz⟩ := sextets x y z
  rw [groupBytes_eq, value?_char h₁, value?_char h₂, if_neg (char_ne_pad h₃),
    if_neg (char_ne_pad h₄), value?_char h₃, value?_char h₄]
  simp [char_ne_pad h₃, char_ne_pad h₄, hx, hy, hz]

/-- Two bytes are read back. -/
theorem groupBytes_two (x y : UInt8) :
    groupBytes true (char (x >>> 2)) (char ((x &&& 3) <<< 4 ||| y >>> 4))
      (char ((y &&& 15) <<< 2)) pad = some [x, y] := by
  obtain ⟨⟨h₁, h₂, h₃, -⟩, hx, hy, -⟩ := sextets x y 0
  have hzero : (0 : UInt8) >>> 6 = 0 := by decide
  rw [hzero, UInt8.or_zero] at h₃ hy
  rw [groupBytes_eq, value?_char h₁, value?_char h₂, if_neg (char_ne_pad h₃), if_pos rfl,
    value?_char h₃]
  simp [char_ne_pad h₃, hx, hy]

/-- One byte is read back. -/
theorem groupBytes_one (x : UInt8) :
    groupBytes true (char (x >>> 2)) (char ((x &&& 3) <<< 4)) pad pad = some [x] := by
  obtain ⟨⟨h₁, h₂, -, -⟩, hx, -, -⟩ := sextets x 0 0
  have hzero : (0 : UInt8) >>> 4 = 0 := by decide
  rw [hzero, UInt8.or_zero] at h₂ hx
  rw [groupBytes_eq, value?_char h₁, value?_char h₂, if_pos rfl]
  simp [hx]

/-! ### Texts -/

/-- A text of `pads` padding characters behind characters of the alphabet, in
groups of four. -/
structure IsText (s : Bytes) (pads : Nat) : Prop where
  groups : s.length % 4 = 0
  few : pads ≤ 2
  body : ∃ body, s = body ++ List.replicate pads pad ∧ ∀ c ∈ body, c ∈ alphabet

variable {s rest : Bytes} {pads : Nat} {a b c d : UInt8}

theorem isText_nil : IsText [] pads ↔ pads = 0 := by
  constructor
  · rintro ⟨-, -, body, hs, -⟩
    have hlength := congrArg List.length hs
    rw [List.length_append, List.length_replicate, List.length_nil] at hlength
    omega
  · rintro rfl
    exact ⟨rfl, by omega, [], rfl, by simp⟩

/-- A group before the last has no padding. -/
theorem isText_cons (hgroups : rest.length % 4 = 0) (hrest : rest ≠ []) :
    IsText (a :: b :: c :: d :: rest) pads ↔
      (a ∈ alphabet ∧ b ∈ alphabet ∧ c ∈ alphabet ∧ d ∈ alphabet) ∧ IsText rest pads := by
  have hlength : 4 ≤ rest.length := by
    have hpos := List.length_pos_of_ne_nil hrest
    omega
  constructor
  · rintro ⟨-, hfew, body, hs, hbody⟩
    have hlong : 4 ≤ body.length := by
      have heq := congrArg List.length hs
      simp only [List.length_cons, List.length_append, List.length_replicate] at heq
      omega
    obtain ⟨a', b', c', d', body', rfl⟩ :
        ∃ a' b' c' d' body', body = a' :: b' :: c' :: d' :: body' := by
      match body, hlong with
      | a' :: b' :: c' :: d' :: body', _ => exact ⟨a', b', c', d', body', rfl⟩
    simp only [List.cons_append, List.cons.injEq] at hs
    obtain ⟨rfl, rfl, rfl, rfl, rfl⟩ := hs
    simp only [List.forall_mem_cons] at hbody
    obtain ⟨ha, hb, hc, hd, hbody⟩ := hbody
    exact ⟨⟨ha, hb, hc, hd⟩, hgroups, hfew, body', rfl, hbody⟩
  · rintro ⟨⟨ha, hb, hc, hd⟩, -, hfew, body, rfl, hbody⟩
    refine ⟨?_, hfew, a :: b :: c :: d :: body, rfl, ?_⟩
    · simp only [List.length_cons]
      omega
    · simp only [List.forall_mem_cons]
      exact ⟨ha, hb, hc, hd, hbody⟩

/-- What fills up a group stands at its end. -/
theorem groupBytes_inside {last : Bool} (hc : c = pad) (hd : d ≠ pad) :
    groupBytes last a b c d = none :=
  groupBytes_misfilled (.inl ⟨hc, hd⟩)

/-- The last group, by what fills it up. -/
theorem isText_group :
    IsText [a, b, c, d] pads ↔ (groupBytes true a b c d).isSome ∧
      pads = (if c = pad then 1 else 0) + (if d = pad then 1 else 0) := by
  have hnot {c : UInt8} (h : c ∈ alphabet) : c ≠ pad := fun heq => pad_not_mem (heq ▸ h)
  constructor
  · rintro ⟨-, hfew, body, hs, hbody⟩
    have hlength := congrArg List.length hs
    rw [List.length_append, List.length_replicate] at hlength
    interval_cases pads
    · obtain rfl : body = [a, b, c, d] := by simpa using hs.symm
      simp only [List.forall_mem_cons] at hbody
      obtain ⟨ha, hb, hc, hd, -⟩ := hbody
      exact ⟨(groupBytes_alphabet (hnot hc) (hnot hd)).mpr ⟨ha, hb, hc, hd⟩,
        by simp [hnot hc, hnot hd]⟩
    · obtain ⟨rfl, rfl⟩ : body = [a, b, c] ∧ d = pad := by
        have hsplit := List.append_inj' (hs.symm.trans (show _ = [a, b, c] ++ [d] from rfl)) rfl
        exact ⟨hsplit.1, by simpa using hsplit.2.symm⟩
      simp only [List.forall_mem_cons] at hbody
      obtain ⟨ha, hb, hc, -⟩ := hbody
      exact ⟨(groupBytes_last rfl).mpr ⟨ha, hb, .inr hc⟩, by simp [hnot hc]⟩
    · obtain ⟨rfl, rfl, rfl⟩ : body = [a, b] ∧ c = pad ∧ d = pad := by
        have hsplit := List.append_inj' (hs.symm.trans (show _ = [a, b] ++ [c, d] from rfl)) rfl
        have hends : pad = c ∧ pad = d := by simpa using hsplit.2
        exact ⟨hsplit.1, hends.1.symm, hends.2.symm⟩
      simp only [List.forall_mem_cons] at hbody
      obtain ⟨ha, hb, -⟩ := hbody
      exact ⟨(groupBytes_last rfl).mpr ⟨ha, hb, .inl rfl⟩, by simp⟩
  · rintro ⟨hgroup, rfl⟩
    by_cases hd : d = pad
    · obtain ⟨ha, hb, hc⟩ := (groupBytes_last hd).mp hgroup
      rcases hc with hc | hc
      · exact ⟨by simp, by simp [hc, hd], [a, b], by simp [hc, hd, List.replicate], by simp [ha, hb]⟩
      · exact ⟨by simp, by simp [hnot hc, hd], [a, b, c], by simp [hnot hc, hd], by simp [ha, hb, hc]⟩
    · have hc : c ≠ pad := fun hc => by
        rw [groupBytes_inside hc hd] at hgroup
        exact Bool.noConfusion hgroup
      obtain ⟨ha, hb, hc', hd'⟩ := (groupBytes_alphabet hc hd).mp hgroup
      exact ⟨by simp, by simp [hc, hd], [a, b, c, d], by simp [hc, hd], by simp [ha, hb, hc', hd']⟩

end Base64
