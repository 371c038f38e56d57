/-
UAgent/Base/Url.lean

The authority of a URL as RFC 3986 (section 3.2) cuts it: the text after
"://" up to the first of '/', '?' and '#', its host after the last '@' and
before the port.  A bracketed IP literal is a host with colons of its own.

`tail` is what a program that ends the authority at the first '/' alone takes
along: the beginning of a query or fragment.
-/
import UAgent.Base.Bytes

namespace Rfc3986

open Bytes

/-- What ends an authority. -/
def delimiter (c : UInt8) : Bool := c = ch '/' || c = ch '?' || c = ch '#'

/-- The authority of the text after "://". -/
def authority (rest : Bytes) : Bytes := rest.takeWhile fun c => !delimiter c

/-- Host and port: the authority without its userinfo. -/
def hostPort (rest : Bytes) : Bytes := afterLast (ch '@') (authority rest)

/-- The host of a host and port: an IP literal through its ']', any other
text up to the ':'. -/
def hostOf (s : Bytes) : Bytes :=
  if s.head? = some (ch '[') ∧ ch ']' ∈ s then untilFirst (ch ']') s ++ [ch ']']
  else untilFirst (ch ':') s

/-- The host of the text after "://". -/
def host (rest : Bytes) : Bytes := hostOf (hostPort rest)

/-- Query or fragment text between the authority and the first '/'. -/
def tail (rest : Bytes) : Bytes := untilFirst (ch '/') (rest.dropWhile fun c => !delimiter c)

/-- The host holds no ':' and nothing but a port follows it. -/
def PortFollows (s : Bytes) : Prop :=
  ch ':' ∉ hostOf s ∧ (s = hostOf s ∨ hostOf s ++ [ch ':'] <+: s)

instance (s : Bytes) : Decidable (PortFollows s) := by unfold PortFollows; infer_instance

theorem hostOf_isPrefix (s : Bytes) : hostOf s <+: s := by
  unfold hostOf
  split_ifs with h
  · obtain ⟨u, v, hs, hu⟩ := List.eq_append_cons_of_mem h.2
    rw [hs, untilFirst_append_cons hu]
    exact ⟨v, by simp⟩
  · exact untilFirst_isPrefix _ s

/-- Cutting at the first ':' gives the host exactly when only a port follows. -/
theorem untilFirst_eq_hostOf_iff (s : Bytes) :
    untilFirst (ch ':') s = hostOf s ↔ PortFollows s :=
  untilFirst_eq_iff

/-- Up to the first '/' stand the authority and the tail. -/
theorem untilFirst_slash (rest : Bytes) :
    untilFirst (ch '/') rest = authority rest ++ tail rest := by
  have hslash : ch '/' ∉ authority rest := fun h => by
    simpa [delimiter] using List.mem_takeWhile_imp h
  conv_lhs =>
    rw [← List.takeWhile_append_dropWhile (p := fun c => !delimiter c) (l := rest)]
  exact untilFirst_append_of_not_mem hslash _

/-- A tail begins with what ended the authority. -/
theorem delimiter_head_tail {rest : Bytes} {c : UInt8} {s : Bytes} (h : tail rest = c :: s) :
    delimiter c = true := by
  obtain ⟨u, hu⟩ : tail rest <+: rest.dropWhile fun c => !delimiter c := untilFirst_isPrefix _ _
  rw [h, List.cons_append] at hu
  have hne : (rest.dropWhile fun c => !delimiter c) ≠ [] := by rw [← hu]; simp
  have hhd := List.head_dropWhile_not (fun c => !delimiter c) hne
  simpa [← hu] using hhd

end Rfc3986
