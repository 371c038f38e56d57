/-
UAgent/Base/HeldTail.lean

Finding a pattern in a text that comes in pieces.  Of a text without the
pattern only the longest tail that begins the pattern has to be held back:
every occurrence that later text completes starts in it (`find_held`).
-/
import UAgent.Base.Occurrences

namespace Bytes

variable {α : Type*} [DecidableEq α] {pat : List α}

/-- A found occurrence is still the first when the text goes on. -/
theorem find_append_right {s : List α} {i : Nat} (h : find pat s = some i) (t : List α) :
    find pat (s ++ t) = some i := by
  induction s generalizing i with
  | nil =>
    rw [find] at h
    split_ifs at h with hpat
    cases h
    exact find_append_of_isPrefix (hpat ▸ List.nil_prefix)
  | cons c s ih =>
    rw [find] at h
    split_ifs at h with hpre
    · cases h
      exact find_append_of_isPrefix (hpre.trans (List.prefix_append _ t))
    · obtain ⟨j, hj, rfl⟩ := Option.map_eq_some_iff.mp h
      obtain ⟨a, b, rfl, -⟩ := exists_eq_append_of_find hj
      have hlen : pat.length ≤ (c :: (a ++ (pat ++ b))).length := by
        simp only [List.length_cons, List.length_append]
        omega
      have hlater : ¬pat <+: c :: (a ++ (pat ++ b)) ++ t := fun hp =>
        hpre (List.prefix_of_prefix_length_le hp (List.prefix_append _ t) hlen)
      rw [List.cons_append] at hlater ⊢
      rw [find, if_neg hlater, ih hj]
      rfl

/-- The length of the longest tail of `text`, of at most `n` characters, that
begins `pat`. -/
def heldTail (pat text : List α) : Nat → Nat
  | 0 => 0
  | n + 1 =>
    if text.drop (text.length - (n + 1)) = pat.take (n + 1) then n + 1 else heldTail pat text n

theorem heldTail_le (text : List α) (n : Nat) : heldTail pat text n ≤ n := by
  induction n with
  | zero => exact le_rfl
  | succ n ih =>
    rw [heldTail]
    split_ifs
    · exact le_rfl
    · exact ih.trans (Nat.le_succ n)

/-- No longer tail begins the pattern. -/
theorem le_heldTail {text : List α} {k n : Nat} (hk : k ≤ n)
    (h : text.drop (text.length - k) = pat.take k) : k ≤ heldTail pat text n := by
  induction n with
  | zero => exact hk
  | succ n ih =>
    rw [heldTail]
    split_ifs with hn
    · exact hk
    · refine ih (Nat.le_of_lt_succ (lt_of_le_of_ne hk ?_))
      rintro rfl
      exact hn h

/-- The tail that is held back begins the pattern. -/
theorem drop_heldTail (text : List α) {n : Nat} :
    text.drop (text.length - heldTail pat text n) = pat.take (heldTail pat text n) := by
  induction n with
  | zero =>
    rw [heldTail, Nat.sub_zero, List.drop_length]
    rfl
  | succ n ih =>
    rw [heldTail]
    split_ifs with hn
    · exact hn
    · exact ih

/-- How much of a text's end begins the pattern, and is not all of it. -/
def begun (pat text : List α) : Nat := heldTail pat text (min text.length (pat.length - 1))

theorem begun_le (pat text : List α) : begun pat text ≤ min text.length (pat.length - 1) :=
  heldTail_le text _

theorem drop_begun (pat text : List α) :
    text.drop (text.length - begun pat text) = pat.take (begun pat text) :=
  drop_heldTail text

theorem le_begun {text : List α} {k : Nat} (hk : k ≤ min text.length (pat.length - 1))
    (h : text.drop (text.length - k) = pat.take k) : k ≤ begun pat text :=
  le_heldTail hk h

/-- A tail that reaches behind the tail of the earlier text would have been a
longer one there. -/
theorem begun_append_le (front chunk : List α) :
    begun pat (front ++ chunk) ≤ begun pat front + chunk.length := by
  by_contra hlong
  have hk := begun_le pat (front ++ chunk)
  have htail := drop_begun pat (front ++ chunk)
  generalize begun pat (front ++ chunk) = k at hlong hk htail
  obtain ⟨j, rfl⟩ : ∃ j, k = j + chunk.length := ⟨k - chunk.length, by omega⟩
  rw [List.length_append] at hk htail
  have hfront : front.drop (front.length - j) = pat.take j := by
    have hcut : (front ++ chunk).drop (front.length + chunk.length - (j + chunk.length)) =
        front.drop (front.length - j) ++ chunk := by
      rw [Nat.add_sub_add_right, List.drop_append_of_le_length (Nat.sub_le _ _)]
    rw [hcut] at htail
    have hlength : (front.drop (front.length - j)).length = j := by
      rw [List.length_drop]
      omega
    rw [← @List.take_left' _ _ chunk _ hlength, htail, List.take_take, min_eq_left (by omega)]
  have := le_begun (by omega) hfront
  omega

/-- What follows decides on the tail of the earlier text only. -/
theorem begun_append (front chunk : List α) :
    begun pat (front.drop (front.length - begun pat front) ++ chunk) =
      begun pat (front ++ chunk) := by
  have hheld := begun_le pat front
  have hle := @begun_append_le _ _ pat front chunk
  generalize hcarry : front.drop (front.length - begun pat front) = carry
  have hlength : carry.length = begun pat front := by
    rw [← hcarry, List.length_drop]
    omega
  have hsplit : front ++ chunk = front.take (front.length - begun pat front) ++ (carry ++ chunk) := by
    rw [← hcarry, ← List.append_assoc, List.take_append_drop]
  -- a tail of the one that is no longer than `carry ++ chunk` is a tail of the other
  have hsame : ∀ k, k ≤ (carry ++ chunk).length →
      (front ++ chunk).drop ((front ++ chunk).length - k) =
        (carry ++ chunk).drop ((carry ++ chunk).length - k) := by
    intro k hk
    rw [hsplit, List.length_append, Nat.add_sub_assoc hk, List.drop_append]
    simp
  refine le_antisymm ?_ ?_
  · have hk := begun_le pat (carry ++ chunk)
    refine le_begun ?_ ?_
    · rw [hsplit, List.length_append]
      omega
    · rw [hsame _ (by omega)]
      exact drop_begun pat (carry ++ chunk)
  · have hk := begun_le pat (front ++ chunk)
    have hshort : begun pat (front ++ chunk) ≤ (carry ++ chunk).length := by
      rw [List.length_append, hlength]
      exact hle
    refine le_begun (by omega) ?_
    rw [← hsame _ hshort]
    exact drop_begun pat (front ++ chunk)

/-- Later text completes an occurrence in the tail held back, or brings its own. -/
theorem find_held {text : List α} (hnone : find pat text = none) (more : List α) :
    find pat (text ++ more) =
      (find pat (text.drop (text.length - heldTail pat text (min text.length (pat.length - 1))) ++ more)).map
        (· + (text.length - heldTail pat text (min text.length (pat.length - 1)))) := by
  generalize hk : heldTail pat text (min text.length (pat.length - 1)) = k
  have hlen : (text.take (text.length - k)).length = text.length - k := by
    rw [List.length_take]
    omega
  have hsplit : text ++ more = text.take (text.length - k) ++ (text.drop (text.length - k) ++ more) := by
    rw [← List.append_assoc, List.take_append_drop]
  rw [hsplit, find_append (text.take (text.length - k)), hlen]
  intro u v huv hv hpre
  -- an occurrence that starts before the held tail would make a longer tail
  have htext : text = u ++ (v ++ text.drop (text.length - k)) := by
    rw [← List.append_assoc, ← huv, List.take_append_drop]
  rw [← List.append_assoc] at hpre
  generalize hw : v ++ text.drop (text.length - k) = w at hpre htext
  have hlong : k < w.length := by
    have hvpos := List.length_pos_iff.mpr hv
    have hle : k ≤ min text.length (pat.length - 1) := hk ▸ heldTail_le text _
    rw [← hw, List.length_append, List.length_drop]
    omega
  by_cases hfits : pat.length ≤ w.length
  · refine find_eq_none_iff.mp hnone ?_
    rw [htext]
    exact (List.prefix_of_prefix_length_le hpre (List.prefix_append w more) hfits).isInfix.trans
      (List.suffix_append u w).isInfix
  · have hbegin : w = pat.take w.length :=
      (List.prefix_iff_eq_take.mp
        (List.prefix_of_prefix_length_le (List.prefix_append w more) hpre (by omega)))
    have htail : text.drop (text.length - w.length) = pat.take w.length := by
      rw [← hbegin, htext, List.length_append, Nat.add_sub_cancel, List.drop_left]
    have hbound : w.length ≤ min text.length (pat.length - 1) := by
      rw [htext, List.length_append]
      omega
    have := le_heldTail hbound htail
    omega

/-! ### Taking occurrences out -/

/-- `t` is `s` with some occurrences of `pat` taken out. -/
inductive Without (pat : List α) : List α → List α → Prop
  | nil : Without pat [] []
  | keep (c : α) {s t : List α} : Without pat s t → Without pat (c :: s) (c :: t)
  | cut {s t : List α} : Without pat s t → Without pat (pat ++ s) t

namespace Without

omit [DecidableEq α] in
theorem append {s t s' t' : List α} (h : Without pat s t) (h' : Without pat s' t') :
    Without pat (s ++ s') (t ++ t') := by
  induction h with
  | nil => exact h'
  | keep c _ ih => exact .keep c ih
  | cut _ ih =>
    rw [List.append_assoc]
    exact .cut ih

omit [DecidableEq α] in
theorem refl (s : List α) : Without pat s s := by
  induction s with
  | nil => exact .nil
  | cons c s ih => exact .keep c ih

end Without

end Bytes
