/-
UAgent/Base/Scrollback.lean

A stream of which only the newest part is kept, and a reader of it.  Positions
count from the beginning of the stream; what is kept begins at `dropped`.

A reader goes on from where it stopped, or from the oldest element kept when
that is later (`Follows`).  What it has taken altogether is then the stream at
growing positions (`taken_positions`, `positions_pairwise`), and a position it
left out had been dropped when it read on (`mem_positions_or_dropped`).
-/
import Mathlib.Data.List.Infix
import Mathlib.Data.List.TakeDrop

namespace Scrollback

variable {α : Type*} {cap limit : Nat} {stream more : List α}

/-- How much of a stream is no longer kept. -/
def dropped (cap : Nat) (stream : List α) : Nat := stream.length - cap

/-- What is kept of it. -/
def kept (cap : Nat) (stream : List α) : List α := stream.drop (dropped cap stream)

theorem dropped_add_length_kept (cap : Nat) (stream : List α) :
    dropped cap stream + (kept cap stream).length = stream.length := by
  rw [kept, List.length_drop, dropped]
  omega

/-- What is kept of a longer stream is kept of what was. -/
theorem kept_append (cap : Nat) (stream more : List α) :
    kept cap (stream ++ more) = kept cap (kept cap stream ++ more) := by
  have hlength := dropped_add_length_kept cap stream
  have hgone : kept cap stream ++ more = (stream ++ more).drop (dropped cap stream) := by
    have hle : dropped cap stream ≤ stream.length := Nat.sub_le _ _
    rw [kept, List.drop_append_of_le_length hle]
  rw [kept, kept, hgone, List.drop_drop, ← hgone]
  congr 1
  simp only [dropped, List.length_append] at hlength ⊢
  omega

/-- A part of what is kept is the part of the stream at its position. -/
theorem drop_kept {position : Nat} (h : dropped cap stream ≤ position) :
    (kept cap stream).drop (position - dropped cap stream) = stream.drop position := by
  rw [kept, List.drop_drop, Nat.add_sub_cancel' h]

/-! ### A reader -/

/-- One read: the stream so far, and what was taken from which position on. -/
structure Taking (α : Type*) where
  stream : List α
  start : Nat
  taken : List α

namespace Taking

/-- Where the read stopped. -/
def stop (t : Taking α) : Nat := t.start + t.taken.length

/-- What was taken is what stands there, so much at a time. -/
def Sound (limit : Nat) (t : Taking α) : Prop := t.taken = (t.stream.drop t.start).take limit

end Taking

/-- A read goes on from the one before, or from the oldest element kept. -/
structure Follows (cap : Nat) (t t' : Taking α) : Prop where
  grown : t.stream <+: t'.stream
  start : t'.start = max t.stop (dropped cap t'.stream)

/-- The positions some read took. -/
def positions (ts : List (Taking α)) : List Nat :=
  ts.flatMap fun t => List.range' t.start t.taken.length

variable {t : Taking α} {ts : List (Taking α)} {i : Nat}

theorem positions_cons (t : Taking α) (ts : List (Taking α)) :
    positions (t :: ts) = List.range' t.start t.taken.length ++ positions ts :=
  List.flatMap_cons

/-- No later read takes what an earlier one took. -/
theorem stop_le_of_mem_positions (h : (t :: ts).IsChain (Follows cap)) (hi : i ∈ positions ts) :
    t.stop ≤ i := by
  induction ts generalizing t with
  | nil => cases hi
  | cons u ts ih =>
    obtain ⟨hnext, hrest⟩ := List.isChain_cons_cons.mp h
    have hstart : t.stop ≤ u.start := hnext.start ▸ le_max_left _ _
    rw [positions_cons, List.mem_append, List.mem_range'_1] at hi
    rcases hi with ⟨hi, -⟩ | hi
    · exact hstart.trans hi
    · exact (hstart.trans (Nat.le_add_right _ _)).trans (ih hrest hi)

/-- What is taken is taken once and in order. -/
theorem positions_pairwise (h : ts.IsChain (Follows cap)) : (positions ts).Pairwise (· < ·) := by
  induction ts with
  | nil => exact List.Pairwise.nil
  | cons t ts ih =>
    rw [positions_cons, List.pairwise_append]
    refine ⟨List.pairwise_lt_range', ih h.of_cons, fun i hi j hj => ?_⟩
    have hlater := stop_le_of_mem_positions h hj
    rw [List.mem_range'_1] at hi
    exact hi.2.trans_le hlater

/-- A read took what stands at its positions. -/
theorem Taking.Sound.taken_eq (h : t.Sound limit) (hstream : t.stream <+: stream) :
    t.taken.map some = (List.range' t.start t.taken.length).map (stream[·]?) := by
  apply List.ext_getElem?
  intro i
  by_cases hi : i < t.taken.length
  · have hlimit : i < limit := by
      rw [h, List.length_take] at hi
      omega
    obtain ⟨x, hx⟩ : ∃ x, t.taken[i]? = some x := ⟨_, List.getElem?_eq_getElem hi⟩
    have hplace : t.stream[t.start + i]? = some x := by
      rw [← hx, h, List.getElem?_take_of_lt hlimit, List.getElem?_drop]
    rw [List.getElem?_map, List.getElem?_map, hx, List.getElem?_range' hi, Option.map_some,
      Option.map_some, Nat.one_mul]
    obtain ⟨rest, rfl⟩ := hstream
    rw [List.getElem?_append_left (List.getElem?_eq_some_iff.mp hplace).1, hplace]
  · rw [List.getElem?_eq_none (by rw [List.length_map]; omega),
      List.getElem?_eq_none (by rw [List.length_map, List.length_range']; omega)]

/-- All that was taken is the stream at the positions. -/
theorem taken_positions (h : ∀ t ∈ ts, t.Sound limit ∧ t.stream <+: stream) :
    (ts.flatMap (·.taken)).map some = (positions ts).map (stream[·]?) := by
  induction ts with
  | nil => rfl
  | cons t ts ih =>
    obtain ⟨hsound, hstream⟩ := h t List.mem_cons_self
    rw [List.flatMap_cons, List.map_append, positions_cons, List.map_append,
      hsound.taken_eq hstream, ih fun t' ht' => h t' (List.mem_cons_of_mem t ht')]

/-- From the first read on, what was left out had been dropped when a read went
on behind it. -/
theorem mem_positions_or_dropped (h : (t :: ts).IsChain (Follows cap)) (hstart : t.start ≤ i)
    (hstop : ∃ u ∈ t :: ts, i < u.stop) :
    i ∈ positions (t :: ts) ∨ ∃ u ∈ ts, i < dropped cap u.stream ∧ u.start = dropped cap u.stream := by
  induction ts generalizing t with
  | nil =>
    obtain ⟨u, hu, hi⟩ := hstop
    obtain rfl := List.mem_singleton.mp hu
    refine .inl ?_
    rw [positions_cons, List.mem_append, List.mem_range'_1]
    exact .inl ⟨hstart, hi⟩
  | cons u ts ih =>
    obtain ⟨hnext, hrest⟩ := List.isChain_cons_cons.mp h
    by_cases hi : i < t.stop
    · refine .inl ?_
      rw [positions_cons, List.mem_append, List.mem_range'_1]
      exact .inl ⟨hstart, hi⟩
    by_cases hgap : i < u.start
    · -- the read went on from the oldest element kept
      have hoff := hnext.start
      exact .inr ⟨u, List.mem_cons_self, by omega, by omega⟩
    · have hlater : ∃ v ∈ u :: ts, i < v.stop := by
        obtain ⟨v, hv, hstop⟩ := hstop
        rcases List.mem_cons.mp hv with rfl | hv
        · exact absurd hstop hi
        · exact ⟨v, hv, hstop⟩
      rcases ih hrest (Nat.le_of_not_lt hgap) hlater with hmem | ⟨v, hv, hdropped⟩
      · rw [positions_cons]
        exact .inl (List.mem_append_right _ hmem)
      · exact .inr ⟨v, List.mem_cons_of_mem u hv, hdropped⟩

end Scrollback
