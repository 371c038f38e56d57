/-
UAgent/Core/Strings.lean

The text helpers of src/core/strings.cc: trimming, ASCII folding, cutting a
text at a byte limit without splitting a character, and the parts of a URL a
route or a permission rule is keyed by.

The authority a URL is keyed by is cut at the first '/' only, while
`redactedUrl`, a few lines further down in the same file, cuts it at the
first of '/', '?' and '#'.  `urlHost_eq_host_iff` says when that is still the
host of RFC 3986.
-/
import UAgent.Base.Url
import Mathlib.Algebra.Ring.Int.Defs

namespace UAgent

open Bytes

/-! ### Trimming and folding -/

/-- The characters `Trim` takes off: space, tab, carriage return, newline. -/
def trimmed (c : UInt8) : Bool := c = 0x20 || c = 0x09 || c = 0x0d || c = 0x0a

/-- `Trim`. -/
def trim (s : Bytes) : Bytes := trimBy trimmed s

/-- `AsciiLower` of one character. -/
def lowerChar (c : UInt8) : UInt8 := if 0x41 ≤ c ∧ c ≤ 0x5a then c - 0x41 + 0x61 else c

/-- `AsciiLower`. -/
def asciiLower (s : Bytes) : Bytes := s.map lowerChar

/-! ### Cutting at a byte limit -/

/-- The loop of `Utf8BoundaryBefore`: steps back over continuation bytes. -/
def stepBack (s : Bytes) : Nat → Nat
  | 0 => 0
  | offset + 1 =>
    match s[offset + 1]? with
    | some c => if isContinuation c then stepBack s offset else offset + 1
    | none => offset + 1

/-- `Utf8BoundaryBefore`. -/
def utf8BoundaryBefore (s : Bytes) (offset : Nat) : Nat := stepBack s (min offset s.length)

/-- `Utf8Prefix`. -/
def utf8Prefix (s : Bytes) (cap : Nat) : Bytes :=
  if s.length ≤ cap then s else s.take (utf8BoundaryBefore s cap)

/-- `Utf8Trunc`: a cut text ends in an ellipsis. -/
def utf8Trunc (s : Bytes) (cap : Nat) : Bytes :=
  if s.length ≤ cap then s else utf8Prefix s cap ++ lit "…"

/-- `FirstLine`. -/
def firstLine (s : Bytes) : Bytes := untilFirst 0x0a s

/-- A cut text is a beginning of the text. -/
theorem utf8Prefix_isPrefix (s : Bytes) (cap : Nat) : utf8Prefix s cap <+: s := by
  unfold utf8Prefix
  split_ifs
  · exact List.prefix_refl s
  · exact List.take_prefix _ s

theorem utf8Prefix_of_le {s : Bytes} {cap : Nat} (h : s.length ≤ cap) : utf8Prefix s cap = s :=
  if_pos h

/-! ### Numbers -/

/-- `isdigit`. -/
def isDigit (c : UInt8) : Bool := 0x30 ≤ c && c ≤ 0x39

/-- `ParseInt64`: what `strtoll` reads must be the whole of the C string. -/
def parseInt64 (text : Bytes) : Option Int :=
  let text := (untilFirst 0 text).dropWhile isSpace
  let digits := if text.head? = some (ch '-') ∨ text.head? = some (ch '+') then text.tail else text
  if digits = [] ∨ ¬digits.all isDigit then none
  else
    let value : Int := digits.foldl (fun n c => n * 10 + (c.toNat - 0x30)) 0
    let value := if text.head? = some (ch '-') then -value else value
    if value < -2 ^ 63 ∨ value > 2 ^ 63 - 1 then none else some value

/-! ### Replacing and hashing -/

/-- The loop of `ReplaceAll`, `skip` bytes of an occurrence being passed over. -/
def replaceFrom (old new : Bytes) : Nat → Bytes → Bytes
  | _, [] => []
  | skip + 1, _ :: s => replaceFrom old new skip s
  | 0, c :: s =>
    if old <+: c :: s then new ++ replaceFrom old new (old.length - 1) s
    else c :: replaceFrom old new 0 s

/-- `ReplaceAll`. -/
def replaceAll (s old new : Bytes) : Bytes := if old = [] then s else replaceFrom old new 0 s

/-- `Fnv1aUpdate` from the offset basis. -/
def fnv1a (data : Bytes) : UInt64 :=
  data.foldl (fun hash c => (hash ^^^ c.toUInt64) * 1099511628211) 14695981039346656037

/-- `Hex64`: 16 lower-case hexadecimal digits. -/
def hex64 (value : UInt64) : Bytes :=
  (List.range 16).map fun i =>
    let digit := (value >>> (UInt64.ofNat (60 - 4 * i)) &&& 0xf).toUInt8
    if digit < 10 then 0x30 + digit else 0x57 + digit

/-- `HashHex`. -/
def hashHex (data : Bytes) : Bytes := hex64 (fnv1a data)

theorem length_hashHex (data : Bytes) : (hashHex data).length = 16 := by
  simp [hashHex, hex64]

/-! ### URLs -/

/-- `UrlAuthority`: scheme, path and credentials stripped. -/
def urlAuthority (url : Bytes) : Bytes :=
  asciiLower (afterLast (ch '@') (untilFirst (ch '/') ((afterFirst (lit "://") url).getD url)))

/-- `UrlHost`. -/
def urlHost (url : Bytes) : Bytes := untilFirst (ch ':') (urlAuthority url)

/-- `find_first_of("/?#")`: what ends an authority in `RedactedUrl`. -/
def endsAuthority (c : UInt8) : Bool := c = ch '/' || c = ch '?' || c = ch '#'

/-- `RedactedUrl`: the URL without its credentials. -/
def redactedUrl (url : Bytes) : Bytes :=
  let rest := (afterFirst (lit "://") url).getD url
  let scheme := url.take (url.length - rest.length)
  let authority := rest.takeWhile fun c => !endsAuthority c
  scheme ++ afterLast (ch '@') authority ++ rest.drop authority.length

/-! ### The host a URL is keyed by -/

@[simp] theorem length_asciiLower (s : Bytes) : (asciiLower s).length = s.length :=
  List.length_map ..

/-- Folding leaves what is no letter alone. -/
theorem lowerChar_eq_iff {c d : UInt8} (hd : d < 0x41) : lowerChar c = d ↔ c = d := by
  unfold lowerChar
  split_ifs with h
  · have hlo := UInt8.le_iff_toNat_le.mp h.1
    have hhi := UInt8.le_iff_toNat_le.mp h.2
    have hd := UInt8.lt_iff_toNat_lt.mp hd
    refine iff_of_false (fun hc => ?_) (fun hc => ?_) <;> subst hc
    · simp [UInt8.toNat_sub, UInt8.toNat_add] at hd hlo hhi
      omega
    · exact absurd hlo (by omega)
  · exact Iff.rfl

theorem mem_asciiLower {d : UInt8} (hd : d < 0x41) {s : Bytes} : d ∈ asciiLower s ↔ d ∈ s := by
  simp [asciiLower, lowerChar_eq_iff hd]

/-- Folding to lower case moves no ':'. -/
theorem asciiLower_untilFirst_colon (s : Bytes) :
    untilFirst (ch ':') (asciiLower s) = asciiLower (untilFirst (ch ':') s) := by
  simp only [untilFirst, asciiLower, List.takeWhile_map]
  congr 2
  funext c
  simp [lowerChar_eq_iff (show ch ':' < 0x41 by decide)]

/-- Two beginnings of one text that fold alike are the same. -/
theorem asciiLower_inj_of_isPrefix {a b s : Bytes} (ha : a <+: s) (hb : b <+: s) :
    asciiLower a = asciiLower b ↔ a = b := by
  refine ⟨fun h => ?_, congrArg _⟩
  have hlen := congrArg List.length h
  rw [length_asciiLower, length_asciiLower] at hlen
  exact List.prefix_of_prefix_length_le ha hb hlen.le |>.eq_of_length hlen

/-- No key holds a '/'. -/
theorem slash_not_mem_urlHost (url : Bytes) : ch '/' ∉ urlHost url := fun h => by
  have hlower := mem_of_mem_untilFirst h
  rw [urlAuthority, mem_asciiLower (by decide)] at hlower
  exact not_mem_untilFirst _ _ (mem_of_mem_afterLast hlower)

/-- `rest` is what follows the "://" of the http or https URL `url`. -/
def HttpUrl (url rest : Bytes) : Prop :=
  ∃ scheme, url = scheme ++ (lit "://" ++ rest) ∧
    (asciiLower scheme = lit "http" ∨ asciiLower scheme = lit "https")

theorem afterFirst_of_httpUrl {url rest : Bytes} (h : HttpUrl url rest) :
    afterFirst (lit "://") url = some rest := by
  obtain ⟨scheme, rfl, hscheme⟩ := h
  have hcolon : ch ':' ∉ scheme := fun hc => by
    rw [← mem_asciiLower (by decide)] at hc
    rcases hscheme with hs | hs <;> rw [hs] at hc <;> exact absurd hc (by decide)
  rw [afterFirst, find_append, find_append_of_isPrefix (List.prefix_append _ _)]
  · simp
  · rintro u v rfl hv ⟨t, ht⟩
    obtain ⟨c, v, rfl⟩ := List.exists_cons_of_ne_nil hv
    obtain rfl : ch ':' = c := (List.cons.inj ht).1
    exact hcolon (by simp)

/-- What `urlHost` keeps of an http URL. -/
theorem urlHost_of_httpUrl {url rest : Bytes} (h : HttpUrl url rest) :
    urlHost url = asciiLower (untilFirst (ch ':')
      (afterLast (ch '@') (Rfc3986.authority rest ++ Rfc3986.tail rest))) := by
  rw [urlHost, urlAuthority, afterFirst_of_httpUrl h, Option.getD_some,
    asciiLower_untilFirst_colon, Rfc3986.untilFirst_slash]

/-- Where the cut at '/' leaves the host of RFC 3986 standing: an '@' in the
query or fragment is followed by that very host, or there is none and the
host, without colons of its own, is closed by a port or the path. -/
def KeyedByHost (rest : Bytes) : Prop :=
  if ch '@' ∈ Rfc3986.tail rest then
    asciiLower (untilFirst (ch ':') (afterLast (ch '@') (Rfc3986.tail rest))) =
      asciiLower (Rfc3986.host rest)
  else
    Rfc3986.PortFollows (Rfc3986.hostPort rest) ∧
      (Rfc3986.tail rest = [] ∨ ch ':' ∈ Rfc3986.hostPort rest)

instance (rest : Bytes) : Decidable (KeyedByHost rest) := by
  unfold KeyedByHost; infer_instance

/-- A tail without port holds something before any ':'. -/
theorem untilFirst_tail_eq_nil {rest : Bytes} (h : untilFirst (ch ':') (Rfc3986.tail rest) = []) :
    Rfc3986.tail rest = [] := by
  rcases ht : Rfc3986.tail rest with - | ⟨c, s⟩
  · rfl
  · have hc := Rfc3986.delimiter_head_tail ht
    rw [ht, untilFirst, List.takeWhile_cons] at h
    have hne : c ≠ ch ':' := by
      rintro rfl
      exact absurd hc (by decide)
    simp [hne] at h

/-- **The key of a URL is its host** exactly under `KeyedByHost`. -/
theorem urlHost_eq_host_iff {url rest : Bytes} (h : HttpUrl url rest) :
    urlHost url = asciiLower (Rfc3986.host rest) ↔ KeyedByHost rest := by
  rw [urlHost_of_httpUrl h, KeyedByHost]
  split_ifs with hat
  · rw [afterLast_append_of_mem _ hat]
  · rw [afterLast_append_of_not_mem _ hat]
    change asciiLower (untilFirst _ (Rfc3986.hostPort rest ++ _)) = _ ↔ _
    rw [← Rfc3986.untilFirst_eq_hostOf_iff, Rfc3986.host]
    have hpre := Rfc3986.hostOf_isPrefix (Rfc3986.hostPort rest)
    generalize Rfc3986.hostPort rest = s at hpre
    by_cases hcolon : ch ':' ∈ s
    · rw [untilFirst_append_of_mem hcolon,
        asciiLower_inj_of_isPrefix (untilFirst_isPrefix _ s) hpre]
      simp [hcolon]
    · rw [untilFirst_append_of_not_mem hcolon, untilFirst_eq_self hcolon]
      constructor
      · intro heq
        have hlen := congrArg List.length heq
        have hle := hpre.length_le
        simp only [length_asciiLower, List.length_append] at hlen
        have hnil : untilFirst (ch ':') (Rfc3986.tail rest) = [] :=
          List.eq_nil_of_length_eq_zero (by omega)
        exact ⟨(hpre.eq_of_length (by omega)).symm, .inl (untilFirst_tail_eq_nil hnil)⟩
      · rintro ⟨heq, htail⟩
        rcases htail with htail | hmem
        · rw [htail, ← heq]
          simp [untilFirst]
        · exact absurd hmem hcolon

end UAgent
