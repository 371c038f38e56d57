/-
UAgent/Ui/InputVerdicts.lean

What more input changes of the decisions about pending bytes
(src/ui/input_decoder.cc).  A decision stays, or there was none and the bytes
that came first are part of what is decided, but for an Escape that is told
from a Meta key by what follows it (`Extends`).

The one exception are string sequences past their bound, which are dropped
with all that is pending.  `boundedVerdict` cuts them at the bound, as the
source does with every other sequence; main result: `boundedVerdict_extends`.
-/
import UAgent.Ui.InputDecoder

namespace UAgent

open Bytes

/-! ### Recognisers -/

/-- A number of bytes that is 0 while more input is needed: more input leaves
it, or comes to more than there was. -/
def Arrives (short long len : Nat) : Prop := long = short ∨ short = 0 ∧ len < long

section Recognisers

variable {p : Bytes} {at_ : Nat}

theorem completeCsiBytes_le (p : Bytes) (at_ : Nat) : completeCsiBytes p at_ ≤ p.length := by
  rw [completeCsiBytes]
  split_ifs
  · exact Nat.zero_le _
  · split
    · rename_i i hi
      obtain ⟨hlt, -⟩ := List.findIdx?_eq_some_iff_getElem.mp hi
      rw [List.length_drop, List.length_take] at hlt
      omega
    · exact Nat.zero_le _

/-- The final byte is within the bound. -/
theorem completeCsiBytes_le_bound (p : Bytes) (at_ : Nat) :
    completeCsiBytes p at_ ≤ at_ + kInputSequenceBytes := by
  rw [completeCsiBytes]
  split_ifs
  · exact Nat.zero_le _
  · split
    · rename_i i hi
      obtain ⟨hlt, -⟩ := List.findIdx?_eq_some_iff_getElem.mp hi
      rw [List.length_drop, List.length_take] at hlt
      omega
    · exact Nat.zero_le _

/-- A CSI that is complete has its introducer and a final byte. -/
theorem le_completeCsiBytes (h : completeCsiBytes p at_ ≠ 0) :
    at_ + 3 ≤ completeCsiBytes p at_ := by
  revert h
  rw [completeCsiBytes]
  split_ifs
  · exact fun h => absurd rfl h
  · split
    · intro _
      omega
    · exact fun h => absurd rfl h

theorem findIdx?_append_cases {α : Type*} (f : α → Bool) (xs ys : List α) :
    (xs ++ ys).findIdx? f = xs.findIdx? f ∨
      xs.findIdx? f = none ∧ ∃ i, (xs ++ ys).findIdx? f = some i ∧ xs.length ≤ i := by
  rw [List.findIdx?_append]
  cases xs.findIdx? f with
  | some i => exact .inl rfl
  | none =>
    cases ys.findIdx? f with
    | none => exact .inl rfl
    | some i => exact .inr ⟨rfl, i + xs.length, rfl, Nat.le_add_left _ _⟩

theorem completeCsiBytes_append (p q : Bytes) (at_ : Nat) :
    Arrives (completeCsiBytes p at_) (completeCsiBytes (p ++ q) at_) p.length := by
  by_cases hshort : p.length < at_ + 3
  · have hzero : completeCsiBytes p at_ = 0 := by rw [completeCsiBytes, if_pos (.inl hshort)]
    by_cases hlong : completeCsiBytes (p ++ q) at_ = 0
    · exact .inl (hlong.trans hzero.symm)
    · exact .inr ⟨hzero, hshort.trans_le (le_completeCsiBytes hlong)⟩
  · have hfirst : (p ++ q)[at_]? = p[at_]? := List.getElem?_append_left (by omega)
    have hsecond : (p ++ q)[at_ + 1]? = p[at_ + 1]? := List.getElem?_append_left (by omega)
    have hsize : ¬(p ++ q).length < at_ + 3 := by
      rw [List.length_append]
      omega
    rw [completeCsiBytes, completeCsiBytes, hfirst, hsecond]
    simp only [hsize, hshort, false_or]
    split_ifs with hother
    · exact .inl rfl
    · have hbody : ((p ++ q).take (at_ + kInputSequenceBytes)).drop (at_ + 2) =
          (p.take (at_ + kInputSequenceBytes)).drop (at_ + 2) ++
            q.take (at_ + kInputSequenceBytes - p.length) := by
        rw [List.take_append, List.drop_append_of_le_length]
        rw [List.length_take, kInputSequenceBytes]
        omega
      rw [hbody]
      by_cases hbound : at_ + kInputSequenceBytes ≤ p.length
      · rw [Nat.sub_eq_zero_of_le hbound, List.take_zero, List.append_nil]
        exact .inl rfl
      · rcases findIdx?_append_cases csiFinal ((p.take (at_ + kInputSequenceBytes)).drop (at_ + 2))
          (q.take (at_ + kInputSequenceBytes - p.length)) with hsame | ⟨hnone, i, hsome, hle⟩
        · rw [hsame]
          exact .inl rfl
        · rw [hnone, hsome]
          refine .inr ⟨rfl, ?_⟩
          rw [List.length_drop, List.length_take] at hle
          show p.length < at_ + 2 + i + 1
          omega

theorem terminated_le {n : Nat} (h : terminated p = some n) : n ≤ p.length := by
  induction p generalizing n with
  | nil => cases h
  | cons byte rest ih =>
    rw [terminated] at h
    split_ifs at h with hbel hst
    · obtain rfl := Option.some_inj.mp h
      exact Nat.le_add_left _ _
    · obtain rfl := Option.some_inj.mp h
      cases rest with
      | nil => exact absurd hst.2 (by simp)
      | cons _ rest => exact Nat.le_add_left _ _
    · obtain ⟨m, hm, rfl⟩ := Option.map_eq_some_iff.mp h
      exact Nat.succ_le_succ (ih hm)

/-- A terminator that was not there ends past what was there. -/
theorem terminated_append (p q : Bytes) :
    terminated (p ++ q) = terminated p ∨
      terminated p = none ∧ ∃ n, terminated (p ++ q) = some n ∧ p.length < n := by
  induction p with
  | nil =>
    cases hq : terminated q with
    | none => exact .inl hq
    | some n =>
      refine .inr ⟨rfl, n, hq, ?_⟩
      cases q with
      | nil => cases hq
      | cons byte rest =>
        rw [terminated] at hq
        split_ifs at hq
        · obtain rfl := Option.some_inj.mp hq
          exact Nat.one_pos
        · obtain rfl := Option.some_inj.mp hq
          exact Nat.two_pos
        · obtain ⟨m, -, rfl⟩ := Option.map_eq_some_iff.mp hq
          exact Nat.succ_pos m
  | cons byte rest ih =>
    rw [List.cons_append, terminated, terminated]
    by_cases hbel : byte = 0x07
    · rw [if_pos hbel, if_pos hbel]
      exact .inl rfl
    rw [if_neg hbel, if_neg hbel]
    by_cases hst : byte = 0x1b ∧ rest.head? = some (ch '\\')
    · have hst' : byte = 0x1b ∧ (rest ++ q).head? = some (ch '\\') := by
        cases rest with
        | nil => exact absurd hst.2 (by simp)
        | cons _ rest => exact hst
      rw [if_pos hst, if_pos hst']
      exact .inl rfl
    rw [if_neg hst]
    by_cases hst' : byte = 0x1b ∧ (rest ++ q).head? = some (ch '\\')
    · -- the Escape of the terminator was the last byte
      obtain rfl : rest = [] := by
        cases rest with
        | nil => rfl
        | cons _ rest => exact absurd hst' hst
      rw [if_pos hst']
      exact .inr ⟨rfl, 2, rfl, Nat.lt_succ_self 1⟩
    rw [if_neg hst']
    rcases ih with hsame | ⟨hnone, n, hsome, hlt⟩
    · rw [hsame]
      exact .inl rfl
    · rw [hnone, hsome]
      exact .inr ⟨rfl, n + 1, rfl, Nat.succ_lt_succ hlt⟩

theorem completeStringSequenceBytes_le (h : 2 ≤ p.length) :
    completeStringSequenceBytes p ≤ p.length := by
  rw [completeStringSequenceBytes]
  split
  · rename_i n hn
    have hle := terminated_le hn
    rw [List.length_drop] at hle
    omega
  · exact Nat.zero_le _

theorem completeStringSequenceBytes_append (q : Bytes) (h : 2 ≤ p.length) :
    Arrives (completeStringSequenceBytes p) (completeStringSequenceBytes (p ++ q)) p.length := by
  rw [completeStringSequenceBytes, completeStringSequenceBytes, List.drop_append_of_le_length h]
  rcases terminated_append (p.drop 2) q with hsame | ⟨hnone, n, hsome, hlt⟩
  · rw [hsame]
    exact .inl rfl
  · rw [hnone, hsome]
    rw [List.length_drop] at hlt
    exact .inr ⟨rfl, by
      show p.length < n + 2
      omega⟩

theorem arrived_le (p : Bytes) (n : Nat) : arrived p n ≤ p.length := by
  rw [arrived]
  split_ifs with h
  · exact h
  · exact Nat.zero_le _

theorem arrived_append (p q : Bytes) (n : Nat) :
    Arrives (arrived p n) (arrived (p ++ q) n) p.length := by
  rw [arrived, arrived]
  by_cases hthere : n ≤ p.length
  · rw [if_pos hthere, if_pos (by
      rw [List.length_append]
      omega)]
    exact .inl rfl
  · rw [if_neg hthere]
    split_ifs
    · exact .inr ⟨rfl, not_le.mp hthere⟩
    · exact .inl rfl

/-- What more input does to a Meta key: Escape twice may turn out to be none. -/
def MetaArrives (short long : Option Nat) (len : Nat) : Prop :=
  long = short ∨ short = some 0 ∧ (len ≤ 2 ∨ ∃ n, long = some n ∧ len < n)

theorem metaArrives_some {short long len : Nat} (h : Arrives short long len) :
    MetaArrives (some short) (some long) len := by
  rcases h with rfl | ⟨rfl, hlt⟩
  · exact .inl rfl
  · exact .inr ⟨rfl, .inr ⟨long, rfl, hlt⟩⟩

theorem metaSequenceBytes_le {n : Nat} (h : metaSequenceBytes p = some n) : n ≤ p.length := by
  rw [metaSequenceBytes] at h
  split at h
  · obtain rfl := Option.some_inj.mp h
    exact Nat.zero_le _
  · split_ifs at h with hss3 hother hcsi hlong <;> obtain rfl := Option.some_inj.mp h
    · exact arrived_le p 4
    · exact completeCsiBytes_le p 1
    · exact hlong
    · exact Nat.zero_le _

theorem metaSequenceBytes_append (p q : Bytes) :
    MetaArrives (metaSequenceBytes p) (metaSequenceBytes (p ++ q)) p.length := by
  cases hthird : p[2]? with
  | none =>
    have hshort : metaSequenceBytes p = some 0 := by rw [metaSequenceBytes, hthird]
    exact .inr ⟨hshort, .inl (List.getElem?_eq_none_iff.mp hthird)⟩
  | some third =>
    obtain ⟨hlt, -⟩ := List.getElem?_eq_some_iff.mp hthird
    have hthird' : (p ++ q)[2]? = some third := (List.getElem?_append_left hlt).trans hthird
    rw [metaSequenceBytes, metaSequenceBytes, hthird, hthird']
    dsimp only
    by_cases hss3 : third = ch 'O'
    · rw [if_pos hss3, if_pos hss3]
      exact metaArrives_some (arrived_append p q 4)
    rw [if_neg hss3, if_neg hss3]
    by_cases hother : third ≠ ch '['
    · rw [if_pos hother, if_pos hother]
      exact .inl rfl
    rw [if_neg hother, if_neg hother]
    rcases completeCsiBytes_append p q 1 with hsame | ⟨hzero, hpast⟩
    · rw [hsame]
      by_cases hcsi : 0 < completeCsiBytes p 1
      · rw [if_pos hcsi, if_pos hcsi]
        exact .inl rfl
      · rw [if_neg hcsi, if_neg hcsi]
        refine metaArrives_some ?_
        rw [Arrives, List.length_append]
        split_ifs <;> omega
    · have hbound := completeCsiBytes_le_bound (p ++ q) 1
      rw [hzero, if_neg (lt_irrefl 0),
        if_neg (show ¬kInputSequenceBytes < p.length by omega),
        if_pos (show 0 < completeCsiBytes (p ++ q) 1 by omega)]
      exact .inr ⟨rfl, .inr ⟨_, rfl, hpast⟩⟩

/-- A Meta key that has arrived is there. -/
theorem metaKeyBytes_le {n : Nat} (h : metaKeyBytes p = some n) : n ≤ p.length := by
  unfold metaKeyBytes at h
  split at h
  · split_ifs at h
    · obtain rfl := Option.some_inj.mp h
      exact arrived_le _ _
    · exact metaSequenceBytes_le h
  · cases h

theorem metaKeyBytes_append (front key : UInt8) (rest q : Bytes) :
    MetaArrives (metaKeyBytes (front :: key :: rest)) (metaKeyBytes (front :: key :: (rest ++ q)))
      (rest.length + 2) := by
  rw [metaKeyBytes, metaKeyBytes]
  split_ifs
  · exact .inl rfl
  · exact metaArrives_some (arrived_append (front :: key :: rest) q _)
  · exact .inl rfl
  · exact metaSequenceBytes_append (front :: key :: rest) q

end Recognisers

/-! ### Verdicts -/

/-- The bytes a decision takes. -/
def InputVerdict.bytes : InputVerdict → Nat
  | .wait => 0
  | .token _ bytes => bytes
  | .startPaste => kPasteStart.length
  | .drop bytes => bytes

/-- What is decided takes some of the pending bytes. -/
def Takes (verdict : Bytes → InputVerdict) : Prop :=
  ∀ p, verdict p ≠ .wait → 0 < (verdict p).bytes ∧ (verdict p).bytes ≤ p.length

/-- What more input does to a decision. -/
def Extends (short long : InputVerdict) (len : Nat) : Prop :=
  long = short ∨ short = .wait ∧ len < long.bytes + 2

theorem sequenceVerdict_takes {p : Bytes} {key : UInt8} (hlen : 2 ≤ p.length)
    (h : sequenceVerdict p key ≠ .wait) :
    0 < (sequenceVerdict p key).bytes ∧ (sequenceVerdict p key).bytes ≤ p.length := by
  rw [sequenceVerdict] at h ⊢
  split_ifs at h ⊢ with hmouse hsix hcsi hfinal hshort hss3 hthree
  · exact absurd rfl h
  · exact ⟨Nat.succ_pos 5, not_lt.mp hsix⟩
  · exact ⟨hfinal, completeCsiBytes_le p 0⟩
  · exact absurd rfl h
  · exact ⟨Nat.succ_pos 63, not_lt.mp hshort⟩
  · exact absurd rfl h
  · exact ⟨Nat.succ_pos 2, not_lt.mp hthree⟩
  · exact ⟨Nat.two_pos, hlen⟩

/-- Either verdict on string sequences. -/
theorem stringVerdict_takes {p : Bytes} (hlen : 2 ≤ p.length) (h : stringVerdict p ≠ .wait) :
    0 < (stringVerdict p).bytes ∧ (stringVerdict p).bytes ≤ p.length := by
  rw [stringVerdict] at h ⊢
  split_ifs at h ⊢ with hopen hshort
  · exact absurd rfl h
  · exact ⟨Nat.lt_of_lt_of_le Nat.two_pos hlen, le_rfl⟩
  · exact ⟨Nat.pos_of_ne_zero hopen, completeStringSequenceBytes_le hlen⟩

theorem keyVerdict_takes {p : Bytes} {key : UInt8} (hlen : 2 ≤ p.length)
    (h : keyVerdict p key ≠ .wait) :
    0 < (keyVerdict p key).bytes ∧ (keyVerdict p key).bytes ≤ p.length := by
  rw [keyVerdict] at h ⊢
  split_ifs at h ⊢
  · exact ⟨Nat.one_pos, Nat.le_of_succ_le hlen⟩
  · exact stringVerdict_takes hlen h
  · exact sequenceVerdict_takes hlen h

theorem escapeVerdict_takes {p : Bytes} {key : UInt8} (hlen : 2 ≤ p.length)
    (h : escapeVerdict p key ≠ .wait) :
    0 < (escapeVerdict p key).bytes ∧ (escapeVerdict p key).bytes ≤ p.length := by
  unfold escapeVerdict at h ⊢
  cases hmeta : metaKeyBytes p with
  | some n =>
    simp only [hmeta] at h ⊢
    have hle := metaKeyBytes_le hmeta
    cases n with
    | zero => exact absurd rfl h
    | succ n => exact ⟨Nat.succ_pos n, hle⟩
  | none =>
    simp only [hmeta] at h ⊢
    exact keyVerdict_takes hlen h

theorem nextVerdict_takes : Takes nextVerdict := by
  intro p h
  unfold nextVerdict at h ⊢
  split at h
  · exact absurd rfl h
  · split_ifs at h ⊢
    · exact ⟨Nat.one_pos, le_rfl⟩
    · exact absurd rfl h
  · rename_i front key rest
    split_ifs at h ⊢ with htext hpaste
    · exact ⟨Nat.one_pos, Nat.le_add_left _ _⟩
    · exact ⟨Nat.succ_pos 5, (List.isPrefixOf_iff_prefix.mp hpaste).length_le⟩
    · exact escapeVerdict_takes (Nat.le_add_left 2 rest.length) h

/-! ### What waits -/

section Waits

variable {p : Bytes}

theorem length_le_of_metaSequenceBytes (h : metaSequenceBytes p = some 0) :
    p.length ≤ kInputSequenceBytes := by
  rw [metaSequenceBytes] at h
  split at h
  · rename_i hthird
    exact (List.getElem?_eq_none_iff.mp hthird).trans (by decide)
  · split_ifs at h with hss3 hother hcsi hlong
    · have hzero := Option.some_inj.mp h
      rw [arrived] at hzero
      split_ifs at hzero with hfour
      exact (not_le.mp hfour).le.trans (by decide)
    · exact absurd (Option.some_inj.mp h) (Nat.ne_of_gt hcsi)
    · exact absurd (Option.some_inj.mp h) (Nat.succ_ne_zero _)
    · exact not_lt.mp hlong

theorem length_le_of_metaKeyBytes (h : metaKeyBytes p = some 0) :
    p.length ≤ kInputSequenceBytes := by
  unfold metaKeyBytes at h
  split at h
  · split_ifs at h
    · have hzero := Option.some_inj.mp h
      rw [arrived, metaCharacterBytes] at hzero
      simp only [kInputSequenceBytes]
      split_ifs at hzero <;> omega
    · exact length_le_of_metaSequenceBytes h
  · cases h

theorem length_lt_of_keyVerdict {key : UInt8} (h : keyVerdict p key = .wait) :
    p.length < kInputStringSequenceBytes := by
  rw [keyVerdict, stringVerdict, sequenceVerdict] at h
  split_ifs at h with hescape hstring hopen hshort hmouse hsix hcsi hfinal hbound hss3 hthree
  · exact hshort
  · exact hsix.trans (by decide)
  · exact hbound.trans (by decide)
  · exact hthree.trans (by decide)

/-- What waits is short. -/
theorem length_lt_of_wait (h : nextVerdict p = .wait) : p.length < kInputStringSequenceBytes := by
  match p with
  | [] => exact Nat.succ_pos _
  | [front] => exact Nat.lt_of_sub_pos (Nat.succ_pos _)
  | front :: key :: rest =>
    rw [nextVerdict] at h
    split_ifs at h
    rw [escapeVerdict] at h
    split at h
    · rename_i hmeta
      exact (length_le_of_metaKeyBytes hmeta).trans_lt (by decide)
    · cases h
    · exact length_lt_of_keyVerdict h

end Waits

/-! ### The bound of string sequences -/

/-- A string sequence is cut at the bound, whatever is pending. -/
def boundedStringVerdict (pending : Bytes) : InputVerdict :=
  let bytes := completeStringSequenceBytes (pending.take kInputStringSequenceBytes)
  if bytes = 0 then
    if pending.length < kInputStringSequenceBytes then .wait else .drop kInputStringSequenceBytes
  else .token .sequence bytes

/-- `nextVerdict`, but for the bound of string sequences. -/
def boundedVerdict (pending : Bytes) : InputVerdict :=
  if startsStringSequence pending then boundedStringVerdict pending else nextVerdict pending

/-- A string sequence without a terminator within the bound, and more input
after it. -/
def LongString (pending : Bytes) : Prop :=
  startsStringSequence pending = true ∧ kInputStringSequenceBytes < pending.length ∧
    completeStringSequenceBytes (pending.take kInputStringSequenceBytes) = 0

section Bound

variable {p : Bytes}

theorem two_le_of_startsStringSequence (h : startsStringSequence p = true) : 2 ≤ p.length := by
  match p with
  | [] => cases h
  | [_] => cases h
  | _ :: _ :: rest => exact Nat.le_add_left 2 rest.length

theorem startsStringSequence_append (q : Bytes) (h : 2 ≤ p.length) :
    startsStringSequence (p ++ q) = startsStringSequence p := by
  match p, h with
  | _ :: _ :: _, _ => rfl

/-- A string introducer decides by itself. -/
theorem nextVerdict_of_string (h : startsStringSequence p = true) :
    nextVerdict p = stringVerdict p := by
  match p, h with
  | front :: key :: rest, h =>
    obtain ⟨hfront, hkey⟩ := Bool.and_eq_true_iff.mp h
    obtain rfl : front = 0x1b := of_decide_eq_true hfront
    have hbytes : key = ch ']' ∨ key = ch 'P' ∨ key = ch 'X' ∨ key = ch '^' ∨ key = ch '_' := by
      simpa [stringIntroducer, or_assoc] using hkey
    have hpaste : kPasteStart.isPrefixOf (0x1b :: key :: rest) = false := by
      rcases hbytes with rfl | rfl | rfl | rfl | rfl <;> rfl
    have hmeta : metaKeyBytes (0x1b :: key :: rest) = none := by
      rcases hbytes with rfl | rfl | rfl | rfl | rfl <;> rfl
    have hescape : key ≠ 0x1b := by
      rcases hbytes with rfl | rfl | rfl | rfl | rfl <;> decide
    simp only [nextVerdict, escapeVerdict, keyVerdict, hpaste, hmeta, hescape, h, ne_eq,
      not_true_eq_false, if_false, if_true, Bool.false_eq_true]

/-- Up to the bound the two verdicts agree. -/
theorem stringVerdict_eq (hlen : 2 ≤ p.length)
    (h : ¬(kInputStringSequenceBytes < p.length ∧
      completeStringSequenceBytes (p.take kInputStringSequenceBytes) = 0)) :
    stringVerdict p = boundedStringVerdict p := by
  rw [stringVerdict, boundedStringVerdict]
  by_cases hlong : kInputStringSequenceBytes < p.length
  · have hopen : completeStringSequenceBytes (p.take kInputStringSequenceBytes) ≠ 0 :=
      fun hzero => h ⟨hlong, hzero⟩
    have htake : 2 ≤ (p.take kInputStringSequenceBytes).length := by
      rw [List.length_take, kInputStringSequenceBytes]
      omega
    have hsame : completeStringSequenceBytes p =
        completeStringSequenceBytes (p.take kInputStringSequenceBytes) := by
      rcases completeStringSequenceBytes_append (p.drop kInputStringSequenceBytes) htake with
        hsame | ⟨hzero, -⟩
      · rwa [List.take_append_drop] at hsame
      · exact absurd hzero hopen
    rw [hsame, if_neg hopen, if_neg hopen]
  · rw [not_lt] at hlong
    rw [List.take_of_length_le hlong]
    split_ifs with hopen hshort
    · rfl
    · rw [Nat.le_antisymm hlong (not_lt.mp hshort)]
    · rfl

/-- **The bound.**  The decisions agree but for long strings. -/
theorem nextVerdict_eq_boundedVerdict (h : ¬LongString p) : nextVerdict p = boundedVerdict p := by
  rw [boundedVerdict]
  split_ifs with hstring
  · rw [nextVerdict_of_string hstring]
    exact stringVerdict_eq (two_le_of_startsStringSequence hstring)
      fun hlong => h ⟨hstring, hlong⟩
  · rfl

theorem boundedVerdict_of_longString (h : LongString p) :
    boundedVerdict p = .drop kInputStringSequenceBytes := by
  obtain ⟨hstring, hlong, hopen⟩ := h
  rw [boundedVerdict, if_pos hstring, boundedStringVerdict, if_pos hopen,
    if_neg (not_lt.mpr hlong.le)]

theorem boundedVerdict_takes : Takes boundedVerdict := by
  intro p h
  by_cases hlong : LongString p
  · rw [boundedVerdict_of_longString hlong]
    exact ⟨Nat.succ_pos _, hlong.2.1.le⟩
  · rw [← nextVerdict_eq_boundedVerdict hlong] at h ⊢
    exact nextVerdict_takes p h

end Bound

/-! ### More input -/

theorem boundedStringVerdict_extends {p : Bytes} (q : Bytes) (hlen : 2 ≤ p.length) :
    Extends (boundedStringVerdict p) (boundedStringVerdict (p ++ q)) p.length := by
  rw [boundedStringVerdict, boundedStringVerdict]
  by_cases hlong : kInputStringSequenceBytes ≤ p.length
  · have hlong' : kInputStringSequenceBytes ≤ (p ++ q).length := by
      rw [List.length_append]
      exact Nat.le_add_right_of_le hlong
    rw [List.take_append_of_le_length hlong]
    simp only [if_neg (not_lt.mpr hlong), if_neg (not_lt.mpr hlong')]
    exact .inl rfl
  · rw [not_le] at hlong
    rw [List.take_of_length_le hlong.le, List.take_append, List.take_of_length_le hlong.le]
    rcases completeStringSequenceBytes_append
      (q.take (kInputStringSequenceBytes - p.length)) hlen with hsame | ⟨hzero, hpast⟩
    · rw [hsame]
      by_cases hopen : completeStringSequenceBytes p = 0
      · rw [if_pos hopen, if_pos hlong, if_pos hopen]
        split_ifs
        · exact .inl rfl
        · exact .inr ⟨rfl, hlong.trans_le (Nat.le_add_right _ 2)⟩
      · rw [if_neg hopen, if_neg hopen]
        exact .inl rfl
    · rw [if_pos hzero, if_pos hlong, if_neg (Nat.ne_of_gt (Nat.zero_lt_of_lt hpast))]
      exact .inr ⟨rfl, hpast.trans_le (Nat.le_add_right _ 2)⟩

/-- A sequence of a fixed length. -/
theorem enough_extends {short long bytes : Nat} (h : short ≤ long) :
    Extends (if short < bytes then .wait else .token .sequence bytes)
      (if long < bytes then .wait else .token .sequence bytes) short := by
  by_cases henough : short < bytes
  · rw [if_pos henough]
    split_ifs
    · exact .inl rfl
    · exact .inr ⟨rfl, henough.trans_le (Nat.le_add_right _ 2)⟩
  · rw [if_neg henough, if_neg fun hlt => henough (h.trans_lt hlt)]
    exact .inl rfl

/-- The three bytes that start a mouse report come with the third. -/
theorem startsX10Mouse_append {front key : UInt8} {rest q : Bytes}
    (hshort : startsX10Mouse (front :: key :: rest) = false)
    (hlong : startsX10Mouse (front :: key :: (rest ++ q)) = true) : rest = [] ∧ key = ch '[' := by
  rw [startsX10Mouse, List.isPrefixOf_iff_prefix, List.cons_prefix_cons,
    List.cons_prefix_cons] at hlong
  obtain ⟨hfront, hkey, hthird⟩ := hlong
  refine ⟨?_, hkey.symm⟩
  cases rest with
  | nil => rfl
  | cons third rest =>
    rw [List.cons_append, List.cons_prefix_cons] at hthird
    rw [← hfront, ← hkey, ← hthird.1] at hshort
    exact absurd hshort (by simp [startsX10Mouse])

theorem sequenceVerdict_extends (front key : UInt8) (rest q : Bytes) :
    Extends (sequenceVerdict (front :: key :: rest) key)
      (sequenceVerdict (front :: key :: (rest ++ q)) key) (rest.length + 2) := by
  have hlen : (front :: key :: rest).length = rest.length + 2 := rfl
  have hle : rest.length + 2 ≤ (front :: key :: (rest ++ q)).length := by
    rw [List.length_cons, List.length_cons, List.length_append]
    omega
  rw [sequenceVerdict, sequenceVerdict, hlen]
  by_cases hmouse : startsX10Mouse (front :: key :: rest) = true
  · have hmouse' : startsX10Mouse (front :: key :: (rest ++ q)) = true :=
      List.isPrefixOf_iff_prefix.mpr
        ((List.isPrefixOf_iff_prefix.mp hmouse).trans (List.prefix_append (front :: key :: rest) q))
    rw [if_pos hmouse, if_pos hmouse']
    exact enough_extends hle
  rw [if_neg hmouse]
  by_cases hmouse' : startsX10Mouse (front :: key :: (rest ++ q)) = true
  · obtain ⟨rfl, rfl⟩ := startsX10Mouse_append (Bool.eq_false_iff.mpr hmouse) hmouse'
    rw [if_pos hmouse', if_pos rfl]
    have hwait : ¬0 < completeCsiBytes [front, ch '['] 0 := by
      intro hcsi
      have hthree := le_completeCsiBytes (Nat.ne_of_gt hcsi)
      exact absurd (hthree.trans (completeCsiBytes_le _ _)) (show ¬0 + 3 ≤ 2 by decide)
    rw [if_neg hwait, if_pos (by decide)]
    split_ifs
    · exact .inl rfl
    · exact .inr ⟨rfl, by decide⟩
  rw [if_neg hmouse']
  by_cases hcsi : key = ch '['
  · rw [if_pos hcsi, if_pos hcsi]
    rcases completeCsiBytes_append (front :: key :: rest) q 0 with hsame | ⟨hzero, hpast⟩
    · have hsame' : completeCsiBytes (front :: key :: (rest ++ q)) 0 =
          completeCsiBytes (front :: key :: rest) 0 := hsame
      rw [hsame']
      by_cases hfinal : 0 < completeCsiBytes (front :: key :: rest) 0
      · rw [if_pos hfinal, if_pos hfinal]
        exact .inl rfl
      · rw [if_neg hfinal, if_neg hfinal]
        exact enough_extends hle
    · have hpast' : rest.length + 2 < completeCsiBytes (front :: key :: (rest ++ q)) 0 := hpast
      have hbound := completeCsiBytes_le_bound (front :: key :: (rest ++ q)) 0
      rw [hzero, if_neg (lt_irrefl 0), if_pos (show rest.length + 2 < kInputSequenceBytes by omega),
        if_pos (Nat.zero_lt_of_lt hpast')]
      exact .inr ⟨rfl, hpast'.trans_le (Nat.le_add_right _ 2)⟩
  rw [if_neg hcsi, if_neg hcsi]
  by_cases hss3 : key = ch 'O'
  · rw [if_pos hss3, if_pos hss3]
    exact enough_extends hle
  · rw [if_neg hss3, if_neg hss3]
    exact .inl rfl

/-- A paste that starts only with more input waited for its marker. -/
theorem nextVerdict_of_pasteStart {p q : Bytes} (hlen : 2 ≤ p.length)
    (hshort : kPasteStart.isPrefixOf p = false) (hlong : kPasteStart.isPrefixOf (p ++ q) = true) :
    nextVerdict p = .wait ∧ p.length < 6 := by
  have hlead := List.isPrefixOf_iff_prefix.mp hlong
  have hlt : p.length < 6 := by
    by_contra hge
    rw [not_lt] at hge
    have hthere : kPasteStart <+: p :=
      List.prefix_of_prefix_length_le hlead (List.prefix_append p q) hge
    rw [List.isPrefixOf_iff_prefix.mpr hthere] at hshort
    exact absurd hshort (by decide)
  have htake : p = kPasteStart.take p.length := by
    have hthere : p <+: kPasteStart :=
      List.prefix_of_prefix_length_le (List.prefix_append p q) hlead hlt.le
    exact List.prefix_iff_eq_take.mp hthere
  refine ⟨?_, hlt⟩
  have hcases : p.length = 2 ∨ p.length = 3 ∨ p.length = 4 ∨ p.length = 5 := by omega
  rw [htake]
  rcases hcases with h | h | h | h <;> rw [h] <;> decide

theorem keyVerdict_extends (front key : UInt8) (rest q : Bytes)
    (hstring : startsStringSequence (front :: key :: rest) = false) :
    Extends (keyVerdict (front :: key :: rest) key) (keyVerdict (front :: key :: (rest ++ q)) key)
      (rest.length + 2) := by
  have hstring' : startsStringSequence (front :: key :: (rest ++ q)) = false := hstring
  rw [keyVerdict, keyVerdict, hstring, hstring']
  by_cases hescape : key = 0x1b
  · rw [if_pos hescape, if_pos hescape]
    exact .inl rfl
  · rw [if_neg hescape, if_neg hescape]
    exact sequenceVerdict_extends front key rest q

theorem escapeVerdict_extends (front key : UInt8) (rest q : Bytes)
    (hstring : startsStringSequence (front :: key :: rest) = false) :
    Extends (escapeVerdict (front :: key :: rest) key)
      (escapeVerdict (front :: key :: (rest ++ q)) key) (rest.length + 2) := by
  rcases metaKeyBytes_append front key rest q with hsame | ⟨hzero, hmore⟩
  · rw [escapeVerdict, escapeVerdict, hsame]
    split
    · exact .inl rfl
    · exact .inl rfl
    · exact keyVerdict_extends front key rest q hstring
  · have hwait : escapeVerdict (front :: key :: rest) key = .wait := by
      simp only [escapeVerdict, hzero]
    by_cases hlong : escapeVerdict (front :: key :: (rest ++ q)) key = .wait
    · exact .inl (hlong.trans hwait.symm)
    · refine .inr ⟨hwait, ?_⟩
      rcases hmore with hshort | ⟨n, hn, hlt⟩
      · have hlen : 2 ≤ (front :: key :: (rest ++ q)).length := Nat.le_add_left 2 (rest ++ q).length
        obtain ⟨hpos, -⟩ := escapeVerdict_takes hlen hlong
        exact hshort.trans_lt (Nat.lt_add_of_pos_left hpos)
      · have hsome : escapeVerdict (front :: key :: (rest ++ q)) key = .token .sequence n := by
          rw [escapeVerdict, hn]
          cases n with
          | zero => exact absurd hlt (Nat.not_lt_zero _)
          | succ n => rfl
        rw [hsome]
        exact hlt.trans_le (Nat.le_add_right n 2)

theorem nextVerdict_extends (p q : Bytes) (hstring : startsStringSequence p = false) :
    Extends (nextVerdict p) (nextVerdict (p ++ q)) p.length := by
  match p, hstring with
  | [], _ => exact .inr ⟨rfl, Nat.succ_pos _⟩
  | [front], _ =>
    by_cases htext : front ≠ 0x1b
    · refine .inl ?_
      cases q <;> simp [nextVerdict, htext]
    · refine .inr ⟨?_, Nat.lt_add_left _ (Nat.lt_succ_self 1)⟩
      simp only [nextVerdict, if_neg htext]
  | front :: key :: rest, hstring =>
    show Extends (nextVerdict (front :: key :: rest)) (nextVerdict (front :: key :: (rest ++ q))) _
    by_cases htext : front ≠ 0x1b
    · rw [nextVerdict, nextVerdict, if_pos htext, if_pos htext]
      exact .inl rfl
    by_cases hlong : kPasteStart.isPrefixOf (front :: key :: (rest ++ q)) = true
    · have hstart : nextVerdict (front :: key :: (rest ++ q)) = .startPaste := by
        rw [nextVerdict, if_neg htext, if_pos hlong]
      rw [hstart]
      by_cases hshort : kPasteStart.isPrefixOf (front :: key :: rest) = true
      · rw [nextVerdict, if_neg htext, if_pos hshort]
        exact .inl rfl
      · obtain ⟨hwait, hlt⟩ := @nextVerdict_of_pasteStart (front :: key :: rest) q
          (Nat.le_add_left 2 rest.length) (Bool.eq_false_iff.mpr hshort) hlong
        exact .inr ⟨hwait, hlt.trans_le (Nat.le_add_right 6 2)⟩
    · have hshort : ¬kPasteStart.isPrefixOf (front :: key :: rest) = true := by
        intro hstart
        exact hlong (List.isPrefixOf_iff_prefix.mpr ((List.isPrefixOf_iff_prefix.mp hstart).trans
          (List.prefix_append (front :: key :: rest) q)))
      rw [nextVerdict, nextVerdict, if_neg htext, if_neg htext, if_neg hshort, if_neg hlong]
      exact escapeVerdict_extends front key rest q hstring

/-- **More input** leaves what the bounded verdict has decided. -/
theorem boundedVerdict_extends (p q : Bytes) :
    Extends (boundedVerdict p) (boundedVerdict (p ++ q)) p.length := by
  by_cases hlen : 2 ≤ p.length
  · rw [boundedVerdict, boundedVerdict, startsStringSequence_append q hlen]
    by_cases hstring : startsStringSequence p = true
    · rw [if_pos hstring, if_pos hstring]
      exact boundedStringVerdict_extends q hlen
    · rw [if_neg hstring, if_neg hstring]
      exact nextVerdict_extends p q (Bool.eq_false_iff.mpr hstring)
  · match p, hlen with
    | [], _ => exact .inr ⟨rfl, Nat.succ_pos _⟩
    | [front], _ =>
      by_cases htext : front ≠ 0x1b
      · have hlong : startsStringSequence ([front] ++ q) = false := by
          cases q with
          | nil => rfl
          | cons key q => simpa [startsStringSequence] using fun hescape => absurd hescape htext
        rw [boundedVerdict, boundedVerdict, hlong]
        exact nextVerdict_extends [front] q rfl
      · refine .inr ⟨?_, Nat.lt_add_left _ (Nat.lt_succ_self 1)⟩
        obtain rfl := not_not.mp htext
        rfl
    | front :: key :: rest, hlen => exact absurd (Nat.le_add_left 2 rest.length) hlen

end UAgent
