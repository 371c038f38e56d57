/-
UAgent/Base/Bytes.lean

Byte strings as lists of bytes, with the handful of text operations a C++
program performs on a `std::string`: cutting at a delimiter, trimming a set
of characters off both ends, searching for a substring and splitting into
blank-separated words.  Nothing here knows the program; every operation is a
total function on lists, so a search that finds nothing is `none` and a cut
at an absent delimiter keeps the whole text.

The cuts are stated generically (`untilFirst`, `afterLast` over any type with
decidable equality), and each comes with the decomposition lemma that later
proofs use in place of unfolding it.
-/
import Mathlib.Algebra.Group.Nat.Defs
import Mathlib.Data.List.Basic
import Mathlib.Data.List.TakeDrop
import Mathlib.Data.List.DropRight
import Mathlib.Data.List.Infix
import Mathlib.Data.List.Induction
import Mathlib.Order.RelClasses

/-- A `std::string`: a list of bytes, no encoding promised. -/
abbrev Bytes := List UInt8

namespace Bytes

instance : LawfulBEq Bytes := inferInstance

/-- A source literal, as the bytes the compiler stores for it (UTF-8). -/
def lit (s : String) : Bytes := s.toUTF8.data.toList

/-- A character literal of the source, for the ASCII range. -/
def ch (c : Char) : UInt8 := c.toUInt8

/-- What holds of the 256 bytes one by one, high digit by high digit, holds of
every byte. -/
theorem forall_byte {P : UInt8 → Prop}
    (h : ∀ high < 16, ∀ low < 16, P (UInt8.ofNat (16 * high + low))) (b : UInt8) : P b := by
  have hlt := b.toNat_lt
  have hb := h (b.toNat / 16) (by omega) (b.toNat % 16) (by omega)
  rwa [Nat.div_add_mod, UInt8.ofNat_toNat] at hb

/-! ### Numbers -/

/-- A number from its bytes, the highest first. -/
def bigEndian (bytes : Bytes) : Nat := bytes.foldl (fun n byte => n * 256 + byte.toNat) 0

theorem bigEndian_concat (bytes : Bytes) (byte : UInt8) :
    bigEndian (bytes ++ [byte]) = bigEndian bytes * 256 + byte.toNat := by
  rw [bigEndian, List.foldl_append]
  rfl

theorem bigEndian_lt (bytes : Bytes) : bigEndian bytes < 256 ^ bytes.length := by
  induction bytes using List.reverseRecOn with
  | nil => exact Nat.one_pos
  | append_singleton bytes byte ih =>
    have hbyte := byte.toNat_lt
    rw [bigEndian_concat, List.length_append, List.length_singleton, Nat.pow_succ]
    omega

/-! ### Order -/

instance : IsStrictTotalOrder UInt8 (· < ·) where
  irrefl a := UInt8.lt_irrefl a
  trans _ _ _ := UInt8.lt_trans
  trichotomous _ _ hab hba := UInt8.le_antisymm (UInt8.not_lt.mp hba) (UInt8.not_lt.mp hab)

/-- Byte strings are ordered as `std::string` compares them. -/
instance : IsStrictTotalOrder Bytes (· < ·) where
  irrefl a := List.lt_irrefl a
  trans _ _ _ := List.lt_trans
  trichotomous _ _ hab hba := List.le_antisymm hba hab

/-! ### Cutting at a delimiter -/

section Cut

variable {α : Type*} [DecidableEq α]

/-- The part before the first `d` (`s.resize(s.find(d))`), all of `s` when
there is none. -/
def untilFirst (d : α) (s : List α) : List α := s.takeWhile (· ≠ d)

/-- The part after the last `d` (`s.substr(s.rfind(d) + 1)`), all of `s` when
there is none. -/
def afterLast (d : α) (s : List α) : List α := s.rtakeWhile (· ≠ d)

theorem untilFirst_isPrefix (d : α) (s : List α) : untilFirst d s <+: s := List.takeWhile_prefix _

theorem untilFirst_eq_self {d : α} {s : List α} (h : d ∉ s) : untilFirst d s = s := by
  refine List.takeWhile_eq_self_iff.mpr fun x hx => ?_
  simpa using fun hxd : x = d => h (hxd ▸ hx)

theorem not_mem_untilFirst (d : α) (s : List α) : d ∉ untilFirst d s := fun h => by
  simpa using List.mem_takeWhile_imp h

/-- Cutting `a ++ d :: b` at a `d` that `a` does not hold leaves `a`. -/
theorem untilFirst_append_cons {d : α} {a : List α} (h : d ∉ a) (b : List α) :
    untilFirst d (a ++ d :: b) = a := by
  rw [untilFirst, List.takeWhile_append_of_pos]
  · simp
  · exact fun x hx => by simpa using fun hxd : x = d => h (hxd ▸ hx)

theorem untilFirst_append_of_mem {d : α} {a : List α} (h : d ∈ a) (b : List α) :
    untilFirst d (a ++ b) = untilFirst d a := by
  obtain ⟨u, v, rfl, hu⟩ := List.eq_append_cons_of_mem h
  rw [List.append_assoc, List.cons_append, untilFirst_append_cons hu, untilFirst_append_cons hu]

theorem untilFirst_append_of_not_mem {d : α} {a : List α} (h : d ∉ a) (b : List α) :
    untilFirst d (a ++ b) = a ++ untilFirst d b :=
  List.takeWhile_append_of_pos fun x hx => by simpa using fun hxd : x = d => h (hxd ▸ hx)

/-- What is cut off at the first `d` is known by what follows it. -/
theorem untilFirst_eq_iff {d : α} {s a : List α} :
    untilFirst d s = a ↔ d ∉ a ∧ (s = a ∨ a ++ [d] <+: s) := by
  constructor
  · rintro rfl
    refine ⟨not_mem_untilFirst d s, ?_⟩
    by_cases h : d ∈ s
    · obtain ⟨u, v, rfl, hu⟩ := List.eq_append_cons_of_mem h
      rw [untilFirst_append_cons hu]
      exact .inr ⟨v, by simp⟩
    · exact .inl (untilFirst_eq_self h).symm
  · rintro ⟨hd, rfl | ⟨v, rfl⟩⟩
    · exact untilFirst_eq_self hd
    · rw [List.append_assoc, List.singleton_append, untilFirst_append_cons hd]

theorem afterLast_eq_self {d : α} {s : List α} (h : d ∉ s) : afterLast d s = s := by
  refine List.rtakeWhile_eq_self_iff.mpr fun x hx => ?_
  simpa using fun hxd : x = d => h (hxd ▸ hx)

theorem afterLast_append_of_mem {d : α} (a : List α) {b : List α} (h : d ∈ b) :
    afterLast d (a ++ b) = afterLast d b := by
  rw [afterLast, afterLast, List.rtakeWhile, List.rtakeWhile, List.reverse_append]
  exact congrArg _ (untilFirst_append_of_mem (List.mem_reverse.mpr h) _)

theorem afterLast_append_of_not_mem {d : α} (a : List α) {b : List α} (h : d ∉ b) :
    afterLast d (a ++ b) = afterLast d a ++ b := by
  rw [afterLast, afterLast, List.rtakeWhile, List.rtakeWhile, List.reverse_append]
  have hc := untilFirst_append_of_not_mem (mt List.mem_reverse.mp h) a.reverse
  rw [untilFirst, untilFirst] at hc
  rw [hc, List.reverse_append, List.reverse_reverse]

/-- Cutting `a ++ d :: b` after a `d` that `b` does not hold leaves `b`. -/
theorem afterLast_append_cons {d : α} (a : List α) {b : List α} (h : d ∉ b) :
    afterLast d (a ++ d :: b) = b := by
  rw [List.append_cons, afterLast_append_of_not_mem _ h,
    afterLast_append_of_mem _ (List.mem_singleton_self d)]
  simp [afterLast]

/-- A text that holds `d` is what stands before the last one, and what is cut
off after it. -/
theorem exists_append_afterLast {d : α} {s : List α} (h : d ∈ s) :
    ∃ a, s = a ++ d :: afterLast d s := by
  obtain ⟨u, v, hs, hu⟩ := List.eq_append_cons_of_mem (List.mem_reverse.mpr h)
  have hrev : s = v.reverse ++ d :: u.reverse := by
    rw [← List.reverse_reverse s, hs]
    simp
  have hcut : afterLast d s = u.reverse := by
    rw [hrev]
    exact afterLast_append_cons _ (by simpa using hu)
  exact ⟨v.reverse, hcut ▸ hrev⟩

theorem not_mem_afterLast (d : α) (s : List α) : d ∉ afterLast d s := fun h => by
  simpa using List.mem_rtakeWhile_imp h

theorem mem_of_mem_afterLast {d x : α} {s : List α} (h : x ∈ afterLast d s) : x ∈ s :=
  (List.rtakeWhile_suffix _ s).subset h

theorem mem_of_mem_untilFirst {d x : α} {s : List α} (h : x ∈ untilFirst d s) : x ∈ s :=
  (List.takeWhile_prefix _).subset h

end Cut

/-! ### Trimming -/

section Trim

variable {α : Type*} (p : α → Bool)

/-- `s` without the `p` characters at either end. -/
def trimBy (s : List α) : List α := (s.dropWhile p).rdropWhile p

variable {p}

/-- A trimmed text begins with a character that is kept. -/
theorem head_trimBy {s : List α} {a : α} {t : List α} (h : trimBy p s = a :: t) : p a = false := by
  obtain ⟨u, hu⟩ := List.rdropWhile_prefix p (s.dropWhile p)
  rw [show (s.dropWhile p).rdropWhile p = a :: t from h] at hu
  have hne : s.dropWhile p ≠ [] := by rw [← hu]; simp
  have hhd := List.head_dropWhile_not p hne
  simpa [← hu] using hhd

/-- A text whose first and last characters are kept is its own trimming. -/
theorem trimBy_eq_self {s : List α} (hh : ∀ a ∈ s.head?, p a = false)
    (hl : ∀ a ∈ s.getLast?, p a = false) : trimBy p s = s := by
  have hd : s.dropWhile p = s := by
    rw [List.dropWhile_eq_self_iff]
    intro hs
    simpa using hh s[0] (by simp [List.head?_eq_getElem?, hs])
  rw [trimBy, hd, List.rdropWhile_eq_self_iff]
  intro hs
  simpa using hl _ (List.getLast?_eq_some_getLast hs)

/-- A trimmed text ends with a character that is kept. -/
theorem getLast_trimBy {s : List α} : ∀ a ∈ (trimBy p s).getLast?, p a = false := by
  intro a ha
  have hne : trimBy p s ≠ [] := fun h => by simp [h] at ha
  have hlast := List.rdropWhile_last_not p (s.dropWhile p) hne
  rw [List.getLast?_eq_some_getLast hne, Option.mem_some] at ha
  subst ha
  exact Bool.not_eq_true _ ▸ hlast

/-- Trimming twice is trimming once. -/
@[simp] theorem trimBy_trimBy (s : List α) : trimBy p (trimBy p s) = trimBy p s := by
  refine trimBy_eq_self (fun a ha => ?_) getLast_trimBy
  obtain ⟨t, ht⟩ := List.head?_eq_some_iff.mp ha
  exact head_trimBy ht

/-- A beginning of a trimmed text, closed by a character that is kept, is
trimmed. -/
theorem trimBy_prefix_append {s m t : List α} {a : α} (hm : m <+: trimBy p s) (hne : m ≠ [])
    (ha : p a = false) : trimBy p (m ++ t ++ [a]) = m ++ t ++ [a] := by
  obtain ⟨b, m, rfl⟩ := List.exists_cons_of_ne_nil hne
  obtain ⟨u, hu⟩ := hm
  refine trimBy_eq_self (fun c hc => ?_) (fun c hc => ?_)
  · obtain rfl : b = c := by simpa using hc
    exact head_trimBy hu.symm
  · rw [List.getLast?_append_of_ne_nil _ (List.cons_ne_nil a []), List.getLast?_singleton] at hc
    obtain rfl : a = c := by simpa using hc
    exact ha

end Trim

/-! ### Searching -/

section Find

variable {α : Type*} [DecidableEq α]

/-- The first position at which `pat` occurs (`s.find(pat)`). -/
def find (pat : List α) : List α → Option Nat
  | [] => if pat = [] then some 0 else none
  | c :: s => if pat <+: c :: s then some 0 else (find pat s).map (· + 1)

/-- The last position at which `pat` occurs (`s.rfind(pat)`). -/
def rfind (pat : List α) : List α → Option Nat
  | [] => if pat = [] then some 0 else none
  | c :: s =>
    ((rfind pat s).map (· + 1)).or (if pat <+: c :: s then some 0 else none)

/-- The text after the first occurrence of `pat`, when there is one. -/
def afterFirst (pat s : List α) : Option (List α) :=
  (find pat s).map fun i => s.drop (i + pat.length)

theorem find_append_of_isPrefix {pat s : List α} (h : pat <+: s) : find pat s = some 0 := by
  cases s with
  | nil => rw [find, if_pos (List.prefix_nil.mp h)]
  | cons c s => rw [find, if_pos h]

/-- Text that cannot begin an occurrence is passed over. -/
theorem find_append {pat : List α} (a : List α) {s : List α}
    (h : ∀ u v, a = u ++ v → v ≠ [] → ¬ pat <+: v ++ s) :
    find pat (a ++ s) = (find pat s).map (· + a.length) := by
  induction a with
  | nil => simp
  | cons c a ih =>
    have hc : ¬ pat <+: c :: (a ++ s) := h [] (c :: a) rfl (by simp)
    rw [List.cons_append, find, if_neg hc, ih fun u v huv hv => h (c :: u) v (by rw [huv]; rfl) hv]
    cases find pat s with
    | none => rfl
    | some i => simp [Nat.add_assoc]

theorem find_eq_none {pat s : List α} (h : ¬ pat <:+: s) : find pat s = none := by
  induction s with
  | nil => rw [find, if_neg]; rintro rfl; exact h List.nil_infix
  | cons c s ih =>
    rw [find, if_neg fun hp => h hp.isInfix, ih fun hi => h (hi.trans (List.suffix_cons c s).isInfix)]
    rfl

/-- The first occurrence is no later than any other. -/
theorem exists_find_le {pat s : List α} (h : pat <+: s) (a : List α) :
    ∃ i ≤ a.length, find pat (a ++ s) = some i := by
  induction a with
  | nil => exact ⟨0, le_rfl, find_append_of_isPrefix h⟩
  | cons c a ih =>
    obtain ⟨i, hi, hfind⟩ := ih
    rw [List.cons_append, find]
    split_ifs
    · exact ⟨0, Nat.zero_le _, rfl⟩
    · exact ⟨i + 1, Nat.succ_le_succ hi, by rw [hfind]; rfl⟩

theorem rfind_eq_none {pat s : List α} (h : ¬ pat <:+: s) : rfind pat s = none := by
  induction s with
  | nil => rw [rfind, if_neg]; rintro rfl; exact h List.nil_infix
  | cons c s ih =>
    rw [rfind, if_neg fun hp => h hp.isInfix, ih fun hi => h (hi.trans (List.suffix_cons c s).isInfix)]
    rfl

/-- An occurrence that no other follows is the last. -/
theorem rfind_append {pat s : List α} {c : α} (h : pat <+: c :: s) (hlast : ¬ pat <:+: s)
    (a : List α) : rfind pat (a ++ c :: s) = some a.length := by
  induction a with
  | nil => rw [List.nil_append, rfind, rfind_eq_none hlast, if_pos h]; rfl
  | cons d a ih => rw [List.cons_append, rfind, ih]; rfl

end Find

/-! ### Joining -/

section Join

variable {α : Type*}

/-- The texts in order with `sep` between every two of them. -/
def joinWith (sep : List α) : List (List α) → List α
  | [] => []
  | x :: xs => x ++ xs.flatMap fun y => sep ++ y

@[simp] theorem joinWith_nil (sep : List α) : joinWith sep [] = [] := rfl

@[simp] theorem joinWith_singleton (sep x : List α) : joinWith sep [x] = x := by
  simp [joinWith]

theorem joinWith_append (sep : List α) {xs ys : List (List α)} (hx : xs ≠ []) (hy : ys ≠ []) :
    joinWith sep (xs ++ ys) = joinWith sep xs ++ sep ++ joinWith sep ys := by
  cases xs with
  | nil => exact absurd rfl hx
  | cons x xs =>
    cases ys with
    | nil => exact absurd rfl hy
    | cons y ys => simp [joinWith]

end Join

/-! ### Characters -/

/-- `isspace` in the "C" locale, which `stream >> word` skips. -/
def isSpace (c : UInt8) : Bool := c = 0x20 || (0x09 ≤ c && c ≤ 0x0d)

/-- `isalnum` in the "C" locale. -/
def isAlnum (c : UInt8) : Bool :=
  (0x30 ≤ c && c ≤ 0x39) || (0x41 ≤ c && c ≤ 0x5a) || (0x61 ≤ c && c ≤ 0x7a)

/-- A byte that continues a UTF-8 sequence. -/
def isContinuation (c : UInt8) : Bool := c &&& 0xc0 = 0x80

/-- The blank-separated words of a text, given the word being read. -/
def wordsFrom (word : Bytes) : Bytes → List Bytes
  | [] => if word = [] then [] else [word]
  | c :: s =>
    if isSpace c then
      if word = [] then wordsFrom [] s else word :: wordsFrom [] s
    else wordsFrom (word ++ [c]) s

end Bytes
