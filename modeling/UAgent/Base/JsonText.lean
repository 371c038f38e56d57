/-
UAgent/Base/JsonText.lean

The text `dump()` writes for a JSON value: compact, without escaping
non-ASCII characters, and with malformed UTF-8 replaced by U+FFFD
(`error_handler_t::replace`), so that writing never fails.

Strings are written by the UTF-8 automaton of the serializer.  Its table is
given here by the byte ranges the table's classes stand for; a byte that
breaks a sequence off is read again on its own.

How a finite double is spelled (Grisu2) is a parameter, `DoubleText`, since
nothing here depends on the digits it chooses.
-/
import UAgent.Base.Json
import Mathlib.Data.Nat.Digits.Defs

/-- How doubles are written and read: the shortest decimal text
(`to_chars`) and `strtod`. -/
class DoubleText where
  toChars : Double → Bytes
  ofChars : Bytes → Double

namespace Json

open Bytes

/-! ### UTF-8 -/

/-- States of the serializer's UTF-8 automaton, by what may come next. -/
inductive Utf8State
  | accept
  | reject
  /-- one, two or three continuation bytes -/
  | tail1
  | tail2
  | tail3
  /-- after `E0`, `ED`, `F0`, `F4`: a restricted continuation byte first -/
  | afterE0
  | afterED
  | afterF0
  | afterF4
deriving DecidableEq

namespace Utf8State

/-- One step of `decode`. -/
def step (st : Utf8State) (c : UInt8) : Utf8State :=
  match st with
  | accept =>
    if c < 0x80 then accept
    else if c < 0xc2 then reject
    else if c < 0xe0 then tail1
    else if c = 0xe0 then afterE0
    else if c = 0xed then afterED
    else if c < 0xf0 then tail2
    else if c = 0xf0 then afterF0
    else if c < 0xf4 then tail3
    else if c = 0xf4 then afterF4
    else reject
  | reject => reject
  | tail1 => if 0x80 ≤ c ∧ c < 0xc0 then accept else reject
  | tail2 => if 0x80 ≤ c ∧ c < 0xc0 then tail1 else reject
  | tail3 => if 0x80 ≤ c ∧ c < 0xc0 then tail2 else reject
  | afterE0 => if 0xa0 ≤ c ∧ c < 0xc0 then tail1 else reject
  | afterED => if 0x80 ≤ c ∧ c < 0xa0 then tail1 else reject
  | afterF0 => if 0x90 ≤ c ∧ c < 0xc0 then tail2 else reject
  | afterF4 => if 0x80 ≤ c ∧ c < 0x90 then tail2 else reject

end Utf8State

/-- U+FFFD, written for each malformed sequence. -/
def replacement : Bytes := [0xef, 0xbf, 0xbd]

/-- A lower-case hexadecimal digit. -/
def hexDigit (n : UInt8) : UInt8 := if n < 10 then 0x30 + n else 0x57 + n

/-- An ASCII character inside a string literal. -/
def escapeChar (c : UInt8) : Bytes :=
  if c = 0x08 then lit "\\b"
  else if c = 0x09 then lit "\\t"
  else if c = 0x0a then lit "\\n"
  else if c = 0x0c then lit "\\f"
  else if c = 0x0d then lit "\\r"
  else if c = 0x22 then lit "\\\""
  else if c = 0x5c then lit "\\\\"
  else if c ≤ 0x1f then lit "\\u00" ++ [hexDigit (c >>> 4), hexDigit (c &&& 0x0f)]
  else [c]

/-- `dump_escaped` from state `st`, with the bytes of the sequence it is
inside held back in `seen`. -/
def escapeFrom (st : Utf8State) (seen : Bytes) : Bytes → Bytes
  | [] => if st = .accept then [] else replacement
  | c :: s =>
    match st.step c with
    | .accept => (if seen = [] then escapeChar c else seen ++ [c]) ++ escapeFrom .accept [] s
    | .reject =>
      if seen = [] then replacement ++ escapeFrom .accept [] s
      else
        -- The byte may be fine by itself: it is read again from the start.
        replacement ++
          match Utf8State.accept.step c with
          | .accept => escapeChar c ++ escapeFrom .accept [] s
          | .reject => replacement ++ escapeFrom .accept [] s
          | st' => escapeFrom st' [c] s
    | st' => escapeFrom st' (seen ++ [c]) s

/-- Only ASCII leaves the automaton where it was. -/
theorem not_ascii_of_step {st : Utf8State} {c : UInt8} (h : st.step c ≠ .reject)
    (hst : st.step c ≠ .accept ∨ st ≠ .accept) : 0x80 ≤ c := by
  rw [← UInt8.not_lt]
  intro hascii
  have hless : ∀ low : UInt8, 0x80 ≤ low → ¬low ≤ c := fun low hlow hle =>
    UInt8.not_lt.mpr (UInt8.le_trans hlow hle) hascii
  cases st with
  | accept => simp [Utf8State.step, hascii] at hst
  | reject => exact h rfl
  | _ => exact h (if_neg fun hin => hless _ (by decide) hin.1)

/-- What holds of the pieces of an escaped text holds of the text: characters,
bytes beyond ASCII, and what is written for a malformed sequence. -/
theorem escapeFrom_induction {P : Bytes → Prop} (nil : P [])
    (append : ∀ a b, P a → P b → P (a ++ b)) (char : ∀ c, P (escapeChar c))
    (replaced : P replacement) (raw : ∀ c, 0x80 ≤ c → P [c]) (s : Bytes) :
    ∀ (st : Utf8State) (seen : Bytes), P seen → (seen = [] ↔ st = .accept) →
      P (escapeFrom st seen s) := by
  induction s with
  | nil =>
    intro st seen _ _
    rw [escapeFrom]
    split_ifs
    · exact nil
    · exact replaced
  | cons c s ih =>
    have hfresh := ih .accept [] nil (by simp)
    intro st seen hseen hiff
    have hheld : st.step c ≠ .reject → (st.step c ≠ .accept ∨ st ≠ .accept) → P (seen ++ [c]) :=
      fun hgo hst => append _ _ hseen (raw c (not_ascii_of_step hgo hst))
    rw [escapeFrom]
    split
    · rename_i hstep
      split_ifs with hnil
      · exact append _ _ (char c) hfresh
      · have hst : st ≠ .accept := fun h => hnil (hiff.mpr h)
        exact append _ _ (hheld (by simp [hstep]) (.inr hst)) hfresh
    · split_ifs with hnil
      · exact append _ _ replaced hfresh
      · refine append _ _ replaced ?_
        split
        · exact append _ _ (char c) hfresh
        · exact append _ _ replaced hfresh
        · rename_i haccept hreject
          exact ih _ [c] (raw c (not_ascii_of_step hreject (.inl haccept))) (by simpa using haccept)
    · rename_i haccept hreject
      exact ih _ _ (hheld hreject (.inl haccept)) (by simpa using haccept)

/-- The inside of the string literal written for `s`. -/
def escape (s : Bytes) : Bytes := escapeFrom .accept [] s

/-- The string literal written for `s`. -/
def quote (s : Bytes) : Bytes := ch '"' :: (escape s ++ [ch '"'])

/-! ### Numbers -/

/-- A natural number in decimal. -/
def decimal (n : Nat) : Bytes :=
  if n = 0 then lit "0" else (Nat.digits 10 n).reverse.map fun d => 0x30 + d.toUInt8

theorem digit_of_mem_decimal {n : Nat} {c : UInt8} (h : c ∈ decimal n) : 0x30 ≤ c ∧ c ≤ 0x39 := by
  unfold decimal at h
  split_ifs at h with hn
  · obtain rfl : c = 0x30 := by simpa [show lit "0" = [0x30] by decide] using h
    decide
  · obtain ⟨d, hd, rfl⟩ := List.mem_map.mp h
    have hlt : d < 10 := Nat.digits_lt_base (by omega) (List.mem_reverse.mp hd)
    have hall : ∀ d : Fin 10, (0x30 : UInt8) ≤ 0x30 + d.val.toUInt8 ∧
        0x30 + d.val.toUInt8 ≤ (0x39 : UInt8) := by decide
    exact hall ⟨d, hlt⟩

theorem decimal_ne_nil (n : Nat) : decimal n ≠ [] := by
  unfold decimal
  split_ifs with hn
  · decide
  · simpa using Nat.digits_ne_nil_iff_ne_zero.mpr hn

/-- The number is read back from its digits. -/
theorem foldl_decimal (n : Nat) :
    (decimal n).foldl (fun n c => 10 * n + (c - 0x30).toNat) 0 = n := by
  rw [decimal]
  split_ifs with hn
  · rw [hn]
    decide
  · have hfold : ∀ digits : List Nat, (∀ d ∈ digits, d < 10) →
        (digits.reverse.map fun d => 0x30 + d.toUInt8).foldl
          (fun n (c : UInt8) => 10 * n + (c - 0x30).toNat) 0 = Nat.ofDigits 10 digits := by
      intro digits
      induction digits with
      | nil => exact fun _ => rfl
      | cons d digits ih =>
        intro hlt
        have hd : ∀ d : Fin 10, (0x30 + d.val.toUInt8 - 0x30 : UInt8).toNat = d.val := by decide
        rw [List.reverse_cons, List.map_append, List.foldl_append,
          ih fun d' hd' => hlt d' (List.mem_cons_of_mem d hd'), Nat.ofDigits_cons]
        show 10 * Nat.ofDigits 10 digits + (0x30 + d.toUInt8 - 0x30 : UInt8).toNat = _
        rw [hd ⟨d, hlt d List.mem_cons_self⟩]
        exact Nat.add_comm _ _
    rw [hfold _ fun d hd => Nat.digits_lt_base (by omega) hd, Nat.ofDigits_digits]

theorem decimal_injective {m n : Nat} (h : decimal m = decimal n) : m = n := by
  rw [← foldl_decimal m, h, foldl_decimal]

/-- An integer in decimal. -/
def decimalInt (n : Int) : Bytes :=
  if n < 0 then ch '-' :: decimal n.natAbs else decimal n.natAbs

theorem decimalInt_injective {m n : Int} (h : decimalInt m = decimalInt n) : m = n := by
  have hsign : ∀ n : Nat, ch '-' ∉ decimal n := fun n hmem => by
    have hdigit := (digit_of_mem_decimal hmem).1
    revert hdigit
    decide
  rw [decimalInt, decimalInt] at h
  split_ifs at h with hm hn hn
  · have heq := decimal_injective (List.cons.inj h).2
    omega
  · exact absurd (h ▸ List.mem_cons_self) (hsign n.natAbs)
  · exact absurd (h ▸ List.mem_cons_self) (hsign m.natAbs)
  · have heq := decimal_injective h
    omega

/-- A spelling that can be evaluated: the bit pattern in decimal, marked as a
floating-point number by ".0". -/
@[reducible] def bitsText : DoubleText where
  toChars x := decimal x.bits.toNat ++ lit ".0"
  ofChars s :=
    ⟨UInt64.ofNat ((untilFirst (ch '.') s).foldl (fun n c => 10 * n + (c - 0x30).toNat) 0)⟩

/-! ### Values -/

section Dump

variable [DoubleText]

mutual

/-- `dump()`. -/
def dump : Json → Bytes
  | .null => lit "null"
  | .bool true => lit "true"
  | .bool false => lit "false"
  | .int n => decimalInt n.toInt
  | .uint n => decimal n.toNat
  | .float x => if x.isFinite then DoubleText.toChars x else lit "null"
  | .str s => quote s
  | .arr items => ch '[' :: (joinWith [ch ','] (dumpItems items) ++ [ch ']'])
  | .obj fields => ch '{' :: (joinWith [ch ','] (dumpFields fields) ++ [ch '}'])

def dumpItems : List Json → List Bytes
  | [] => []
  | j :: items => dump j :: dumpItems items

def dumpFields : List (Bytes × Json) → List Bytes
  | [] => []
  | (k, v) :: fields => (quote k ++ ch ':' :: dump v) :: dumpFields fields

end

theorem dumpItems_eq_map (items : List Json) : dumpItems items = items.map dump := by
  induction items with
  | nil => simp [dumpItems]
  | cons j items ih => simp [dumpItems, ih]

/-- One member of an object's text. -/
def dumpField (e : Bytes × Json) : Bytes := quote e.1 ++ ch ':' :: dump e.2

theorem dumpFields_eq_map (fields : List (Bytes × Json)) :
    dumpFields fields = fields.map dumpField := by
  induction fields with
  | nil => simp [dumpFields]
  | cons e fields ih => simp [dumpFields, dumpField, ih]

theorem dump_arr (items : List Json) :
    dump (.arr items) = ch '[' :: (joinWith [ch ','] (items.map dump) ++ [ch ']']) := by
  rw [dump, dumpItems_eq_map]

theorem dump_obj (fields : List (Bytes × Json)) :
    dump (.obj fields) = ch '{' :: (joinWith [ch ','] (fields.map dumpField) ++ [ch '}']) := by
  rw [dump, dumpFields_eq_map]

end Dump

end Json
