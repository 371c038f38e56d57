/-
UAgent/Base/Pattern.lean

Regular expressions without anchors, matched the way a backtracking engine
matches them.  A pattern read at the beginning of a text has a list of ends:
the lengths it may match, in the order the engine would try them (the left
side of an alternative first, a greedy repetition longest first, a lazy one
shortest first).  The match is the first of them.

Repetition is of a class of symbols, which is all the patterns of a token
scanner need, and keeps `ends` structural.

The main result is **`ends_take`**: cutting the text short only takes the
ends away that lie behind the cut, and keeps the order of the others.
Everything that relates a match in a text to a match in an edited text goes
through it.
-/
import Mathlib.Data.List.TakeWhile
import Mathlib.Data.List.TakeDrop
import Mathlib.Data.List.Range

/-- A pattern over the symbols `σ`; a class of symbols is its test. -/
inductive Pattern (σ : Type*)
  | empty
  | sym (p : σ → Bool)
  | seq (r t : Pattern σ)
  | alt (r t : Pattern σ)
  /-- `p{lo,}`: at least `lo` symbols, as many as there are first. -/
  | many (p : σ → Bool) (lo : Nat)
  /-- `p*?`: as few symbols as will do. -/
  | fewest (p : σ → Bool)

namespace Pattern

variable {σ : Type*}

/-- `r?`: there if it can be. -/
def opt (r : Pattern σ) : Pattern σ := alt r empty

/-- `p{n}`. -/
def times (p : σ → Bool) : Nat → Pattern σ
  | 0 => empty
  | n + 1 => seq (sym p) (times p n)

/-- One class after another. -/
def syms : List (σ → Bool) → Pattern σ
  | [] => empty
  | p :: ps => seq (sym p) (syms ps)

/-- The first alternative that goes through. -/
def oneOf : List (Pattern σ) → Pattern σ
  | [] => sym fun _ => false
  | [r] => r
  | r :: rs => alt r (oneOf rs)

/-- How many symbols of a class a text begins with. -/
def spanLen (p : σ → Bool) (s : List σ) : Nat := (s.takeWhile p).length

/-- The lengths of the beginnings of a text that a pattern matches, in the
order they are tried. -/
def ends : Pattern σ → List σ → List Nat
  | empty, _ => [0]
  | sym p, s =>
    match s with
    | [] => []
    | c :: _ => if p c then [1] else []
  | seq r t, s => (ends r s).flatMap fun n => (ends t (s.drop n)).map (n + ·)
  | alt r t, s => ends r s ++ ends t s
  | many p lo, s => (List.range' lo (spanLen p s + 1 - lo)).reverse
  | fewest p, s => List.range (spanLen p s + 1)

/-- A match of `r` followed by `t`, cut between the two: the first way to
read `r` behind which `t` can be read. -/
def split (r t : Pattern σ) (s : List σ) : Option (Nat × Nat) :=
  (ends r s).findSome? fun n => (ends t (s.drop n)).head?.map fun d => (n, d)

/-! ### Spans -/

section Spans

variable {p : σ → Bool} {s : List σ} {n : Nat}

@[simp] theorem spanLen_nil (p : σ → Bool) : spanLen p [] = 0 := rfl

theorem spanLen_cons_of_pos {c : σ} (hc : p c = true) (s : List σ) :
    spanLen p (c :: s) = spanLen p s + 1 := by
  simp [spanLen, hc]

theorem spanLen_cons_of_neg {c : σ} (hc : p c = false) (s : List σ) : spanLen p (c :: s) = 0 := by
  simp [spanLen, hc]

theorem spanLen_le : spanLen p s ≤ s.length := (List.takeWhile_prefix _).length_le

theorem spanLen_take (p : σ → Bool) (s : List σ) (n : Nat) :
    spanLen p (s.take n) = min n (spanLen p s) := by
  induction s generalizing n with
  | nil => simp
  | cons c s ih =>
    rcases n with - | n
    · simp
    · cases hc : p c
      · simp [spanLen_cons_of_neg hc]
      · simp [spanLen_cons_of_pos hc, ih]

theorem spanLen_drop (hn : n ≤ spanLen p s) : spanLen p (s.drop n) = spanLen p s - n := by
  induction n generalizing s with
  | zero => simp
  | succ n ih =>
    rcases s with - | ⟨c, s⟩
    · simp
    · cases hc : p c
      · rw [spanLen_cons_of_neg hc] at hn
        omega
      · rw [spanLen_cons_of_pos hc] at hn ⊢
        rw [List.drop_succ_cons, ih (by omega)]
        omega

/-- The symbols of a span are in the class. -/
theorem forall_mem_take_spanLen (hn : n ≤ spanLen p s) : ∀ c ∈ s.take n, p c = true := by
  induction n generalizing s with
  | zero => simp
  | succ n ih =>
    rcases s with - | ⟨c, s⟩
    · simp
    · cases hc : p c
      · rw [spanLen_cons_of_neg hc] at hn
        omega
      · rw [spanLen_cons_of_pos hc] at hn
        simpa [hc] using ih (by omega)

/-- A beginning in the class lies in the span. -/
theorem le_spanLen (hn : n ≤ s.length) (h : ∀ c ∈ s.take n, p c = true) : n ≤ spanLen p s := by
  induction n generalizing s with
  | zero => simp
  | succ n ih =>
    rcases s with - | ⟨c, s⟩
    · simp at hn
    · have hc : p c = true := h c (by simp)
      rw [spanLen_cons_of_pos hc]
      exact Nat.succ_le_succ (ih (by simpa using hn) fun x hx => h x (by simp [hx]))

/-- A span ends where the class does. -/
theorem spanLen_eq (hn : n ≤ spanLen p s) (h : ∀ c ∈ s[n]?, p c = false) : spanLen p s = n := by
  have hdrop := spanLen_drop hn
  rw [← List.head?_drop] at h
  rcases hs : s.drop n with - | ⟨c, t⟩
  · rw [hs, spanLen_nil] at hdrop
    omega
  · rw [hs, spanLen_cons_of_neg (h c (by simp [hs]))] at hdrop
    omega

/-- Behind a span the class has ended. -/
theorem getElem?_spanLen : ∀ c ∈ s[spanLen p s]?, p c = false := by
  intro c hc
  have hdrop := spanLen_drop (p := p) (s := s) le_rfl
  rw [← List.head?_drop] at hc
  obtain ⟨t, ht⟩ := List.head?_eq_some_iff.mp hc
  rw [ht] at hdrop
  cases hp : p c
  · rfl
  · rw [spanLen_cons_of_pos hp] at hdrop
    omega

/-- Within a span every position holds a symbol of the class. -/
theorem getElem?_of_lt_spanLen (hn : n < spanLen p s) : ∃ c ∈ s[n]?, p c = true := by
  have hlen := hn.trans_le spanLen_le
  refine ⟨s[n], by simp [hlen], ?_⟩
  refine forall_mem_take_spanLen (n := n + 1) hn _ ?_
  exact List.mem_take_iff_getElem.mpr ⟨n, by omega, rfl⟩

/-- A symbol outside the class ends a span as the end of the text does. -/
theorem spanLen_append_cons {c : σ} (hc : p c = false) (z t : List σ) :
    spanLen p (z ++ c :: t) = spanLen p z := by
  induction z with
  | nil => rw [List.nil_append, spanLen_cons_of_neg hc, spanLen_nil]
  | cons b z ih =>
    cases hb : p b
    · rw [List.cons_append, spanLen_cons_of_neg hb, spanLen_cons_of_neg hb]
    · rw [List.cons_append, spanLen_cons_of_pos hb, spanLen_cons_of_pos hb, ih]

/-- A span holds what it is connected to. -/
theorem lt_spanLen_of_forall {i j : Nat} (hi : i < spanLen p s)
    (h : ∀ x, i ≤ x → x ≤ j → ∃ c ∈ s[x]?, p c = true) : j < spanLen p s := by
  by_contra hge
  obtain ⟨c, hc, hp⟩ := h (spanLen p s) hi.le (by omega)
  rw [getElem?_spanLen c hc] at hp
  exact absurd hp Bool.false_ne_true

end Spans

/-! ### Membership -/

section Membership

variable {p : σ → Bool} {r t : Pattern σ} {s : List σ} {n d lo : Nat}

@[simp] theorem ends_empty : ends empty s = [0] := rfl

@[simp] theorem mem_ends_sym : n ∈ ends (sym p) s ↔ n = 1 ∧ ∃ c ∈ s.head?, p c = true := by
  rcases s with - | ⟨c, s⟩ <;> simp [ends]
  by_cases h : p c <;> simp [h]

@[simp] theorem mem_ends_seq :
    n ∈ ends (seq r t) s ↔ ∃ i ∈ ends r s, ∃ j ∈ ends t (s.drop i), n = i + j := by
  simp [ends, eq_comm]

@[simp] theorem mem_ends_alt : n ∈ ends (alt r t) s ↔ n ∈ ends r s ∨ n ∈ ends t s := by
  simp [ends]

@[simp] theorem mem_ends_opt : n ∈ ends (opt r) s ↔ n ∈ ends r s ∨ n = 0 := by
  simp [opt]

@[simp] theorem mem_ends_many :
    n ∈ ends (many p lo) s ↔ lo ≤ n ∧ n ≤ spanLen p s := by
  simp only [ends, List.mem_reverse, List.mem_range'_1]
  omega

@[simp] theorem mem_ends_fewest : n ∈ ends (fewest p) s ↔ n ≤ spanLen p s := by
  rw [ends, List.mem_range, Nat.lt_succ_iff]

theorem mem_ends_oneOf {rs : List (Pattern σ)} :
    n ∈ ends (oneOf rs) s ↔ ∃ r ∈ rs, n ∈ ends r s := by
  induction rs with
  | nil => simp [oneOf]
  | cons r rs ih =>
    rcases rs with - | ⟨r', rs⟩
    · simp [oneOf]
    · simp only [oneOf, mem_ends_alt, List.mem_cons, exists_eq_or_imp] at ih ⊢
      rw [ih]

/-- A pattern matches no more than there is. -/
theorem le_length_of_mem_ends (h : n ∈ ends r s) : n ≤ s.length := by
  induction r generalizing s n with
  | empty => simp_all
  | sym p => rcases s with - | ⟨c, s⟩ <;> simp_all
  | seq r t ihr iht =>
    obtain ⟨i, hi, j, hj, rfl⟩ := mem_ends_seq.mp h
    have hr := ihr hi
    have ht := iht hj
    rw [List.length_drop] at ht
    omega
  | alt r t ihr iht => exact (mem_ends_alt.mp h).elim ihr iht
  | many p lo => exact (mem_ends_many.mp h).2.trans spanLen_le
  | fewest p => exact (mem_ends_fewest.mp h).trans spanLen_le

end Membership

/-! ### What a match depends on -/

section Locality

variable {p : σ → Bool} {r t : Pattern σ} {s : List σ} {n d lo : Nat}

theorem filter_range'_le (lo k n : Nat) :
    (List.range' lo k).filter (· ≤ n) = List.range' lo (min k (n + 1 - lo)) := by
  induction k generalizing lo with
  | zero => simp
  | succ k ih =>
    rw [List.range'_succ, List.filter_cons, ih]
    by_cases hlo : lo ≤ n
    · rw [if_pos (by simpa using hlo),
        show min (k + 1) (n + 1 - lo) = min k (n + 1 - (lo + 1)) + 1 by omega, List.range'_succ]
    · rw [if_neg (by simpa using hlo), show n + 1 - (lo + 1) = 0 by omega,
        show n + 1 - lo = 0 by omega]
      simp

theorem flatMap_filter {α β : Type*} (l : List α) (q : α → Bool) (f : α → List β) :
    (l.filter q).flatMap f = l.flatMap fun a => if q a then f a else [] := by
  induction l with
  | nil => rfl
  | cons a l ih => by_cases hq : q a <;> simp [hq, ih]

/-- **Prefix locality**: in a text cut short a pattern has the ends it had,
less the ones behind the cut, in the same order. -/
theorem ends_take (r : Pattern σ) (s : List σ) (n : Nat) :
    ends r (s.take n) = (ends r s).filter (· ≤ n) := by
  induction r generalizing s n with
  | empty => simp
  | sym p =>
    rcases s with - | ⟨c, s⟩
    · simp [ends]
    · rcases n with - | n <;> by_cases hc : p c <;> simp [ends, hc]
  | seq r t ihr iht =>
    rw [ends, ends, ihr, List.filter_flatMap, flatMap_filter]
    refine List.flatMap_congr fun i _ => ?_
    rw [List.filter_map, List.drop_take, iht]
    by_cases hi : i ≤ n
    · rw [if_pos (by simpa using hi)]
      congr 1
      refine List.filter_congr fun j _ => ?_
      simp only [Function.comp, decide_eq_decide]
      omega
    · rw [if_neg (by simpa using hi), List.filter_eq_nil_iff.mpr, List.map_nil]
      intro j _
      simp only [Function.comp, decide_eq_true_eq]
      omega
  | alt r t ihr iht => simp only [ends, ihr, iht, List.filter_append]
  | many p lo =>
    rw [ends, ends, spanLen_take, List.filter_reverse, filter_range'_le]
    congr 2
    omega
  | fewest p =>
    rw [ends, ends, spanLen_take, List.range_eq_range', List.range_eq_range',
      filter_range'_le]
    congr 1
    omega

/-- A match ends in the text cut after it as well. -/
theorem mem_ends_take : n ∈ ends r (s.take d) ↔ n ∈ ends r s ∧ n ≤ d := by
  rw [ends_take, List.mem_filter, decide_eq_true_eq]

/-- Whether a symbol is in a class of the pattern. -/
def reads (c : σ) : Pattern σ → Bool
  | empty => false
  | sym p => p c
  | seq r t => reads c r || reads c t
  | alt r t => reads c r || reads c t
  | many p _ => p c
  | fewest p => p c

theorem reads_syms {c : σ} {ps : List (σ → Bool)} :
    reads c (syms ps) = true ↔ ∃ p ∈ ps, p c = true := by
  induction ps with
  | nil => simp [syms, reads]
  | cons p ps ih => simp [syms, reads, ih]

theorem reads_oneOf {c : σ} {rs : List (Pattern σ)} :
    reads c (oneOf rs) = true ↔ ∃ r ∈ rs, reads c r = true := by
  induction rs with
  | nil => simp [oneOf, reads]
  | cons r rs ih =>
    rcases rs with - | ⟨r', rs⟩
    · simp [oneOf]
    · simp only [oneOf, reads, Bool.or_eq_true, List.mem_cons, exists_eq_or_imp] at ih ⊢
      rw [ih]

/-- Every symbol a pattern matches is in one of its classes. -/
theorem reads_of_mem_take (h : n ∈ ends r s) : ∀ c ∈ s.take n, reads c r = true := by
  induction r generalizing s n with
  | empty => simp_all
  | sym p => rcases s with - | ⟨c, s⟩ <;> simp_all [reads]
  | seq r t ihr iht =>
    obtain ⟨i, hi, j, hj, rfl⟩ := mem_ends_seq.mp h
    intro c hc
    rw [List.take_add, List.mem_append] at hc
    rw [reads, Bool.or_eq_true]
    exact hc.imp (ihr hi c) (iht hj c)
  | alt r t ihr iht =>
    intro c hc
    rw [reads, Bool.or_eq_true]
    exact (mem_ends_alt.mp h).imp (fun h => ihr h c hc) fun h => iht h c hc
  | many p lo => exact forall_mem_take_spanLen (mem_ends_many.mp h).2
  | fewest p => exact forall_mem_take_spanLen (mem_ends_fewest.mp h)

/-- A pattern that cannot read the symbol behind `z` matches what it matches
in `z`. -/
theorem ends_append_cons {c : σ} (hc : reads c r = false) (z t : List σ) :
    ends r (z ++ c :: t) = ends r z := by
  have hcut : (z ++ c :: t).take z.length = z := List.take_left
  conv_rhs => rw [← hcut, ends_take]
  refine (List.filter_eq_self.mpr fun n hn => ?_).symm
  rw [decide_eq_true_eq]
  by_contra hlt
  refine absurd (reads_of_mem_take hn c ?_) (by simp [hc])
  rw [List.take_append, List.mem_append]
  refine Or.inr ?_
  obtain ⟨k, hk⟩ : ∃ k, n - z.length = k + 1 := ⟨n - z.length - 1, by omega⟩
  rw [hk, List.take_succ_cons]
  exact List.mem_cons_self

/-- The least a pattern reads. -/
def least : Pattern σ → Nat
  | empty => 0
  | sym _ => 1
  | seq r t => least r + least t
  | alt r t => min (least r) (least t)
  | many _ lo => lo
  | fewest _ => 0

theorem least_le {r : Pattern σ} {s : List σ} {n : Nat} (h : n ∈ ends r s) : least r ≤ n := by
  induction r generalizing s n with
  | empty => exact Nat.zero_le _
  | sym p => exact (mem_ends_sym.mp h).1.ge
  | seq r t ihr iht =>
    obtain ⟨i, hi, j, hj, rfl⟩ := mem_ends_seq.mp h
    exact Nat.add_le_add (ihr hi) (iht hj)
  | alt r t ihr iht =>
    rcases mem_ends_alt.mp h with h | h
    · exact (Nat.min_le_left _ _).trans (ihr h)
    · exact (Nat.min_le_right _ _).trans (iht h)
  | many p lo => exact (mem_ends_many.mp h).1
  | fewest p => exact Nat.zero_le _

end Locality

/-! ### Matches cut in two -/

section Split

variable {r t : Pattern σ} {s : List σ} {k d : Nat}

/-- Where a match is cut, and what it drops. -/
theorem split_some (h : split r t s = some (k, d)) :
    k ∈ ends r s ∧ (ends t (s.drop k)).head? = some d := by
  obtain ⟨n, hn, hd⟩ := List.exists_of_findSome?_eq_some h
  obtain ⟨d', hd', heq⟩ := Option.map_eq_some_iff.mp hd
  obtain ⟨rfl, rfl⟩ := Prod.mk.injEq .. ▸ heq
  exact ⟨hn, hd'⟩

theorem mem_of_split_some (h : split r t s = some (k, d)) : d ∈ ends t (s.drop k) :=
  List.mem_of_head? (split_some h).2

theorem split_le_length (h : split r t s = some (k, d)) : k + d ≤ s.length := by
  have hk := le_length_of_mem_ends (split_some h).1
  have hd := le_length_of_mem_ends (mem_of_split_some h)
  rw [List.length_drop] at hd
  omega

/-- There is a match when both sides can be read, one behind the other. -/
theorem split_ne_none (hk : k ∈ ends r s) (hd : d ∈ ends t (s.drop k)) : split r t s ≠ none := by
  intro hnone
  have hn := List.findSome?_eq_none_iff.mp hnone k hk
  rw [Option.map_eq_none_iff, List.head?_eq_none_iff] at hn
  rw [hn] at hd
  exact absurd hd List.not_mem_nil

/-- Where only one cut is possible, the match is cut there. -/
theorem split_eq_some (hk : k ∈ ends r s) (hd : (ends t (s.drop k)).head? = some d)
    (huniq : ∀ k' ∈ ends r s, ends t (s.drop k') ≠ [] → k' = k) : split r t s = some (k, d) := by
  rcases h : split r t s with - | ⟨k', d'⟩
  · exact absurd h (split_ne_none hk (List.mem_of_head? hd))
  · obtain ⟨hk', hd'⟩ := split_some h
    obtain rfl := huniq k' hk' fun hnil => by simp [hnil] at hd'
    rw [hd] at hd'
    rw [Option.some.inj hd']

@[simp] theorem head?_ends_many {p : σ → Bool} {lo : Nat} :
    (ends (many p lo) s).head? = if lo ≤ spanLen p s then some (spanLen p s) else none := by
  rw [ends, List.head?_reverse]
  split_ifs with hlo
  · rw [show spanLen p s + 1 - lo = (spanLen p s - lo) + 1 by omega, List.range'_concat]
    simp
    omega
  · rw [show spanLen p s + 1 - lo = 0 by omega]
    rfl

/-- What is dropped is what the whole pattern reads, when nothing is kept. -/
theorem split_empty : split empty t s = (ends t s).head?.map fun d => (0, d) := by
  simp [split]

theorem head?_ends_seq : (ends (seq r t) s).head? = (split r t s).map fun m => m.1 + m.2 := by
  rw [ends, List.head?_flatMap, split, List.map_findSome?]
  simp [Function.comp_def]

theorem findSome?_flatMap {α β γ : Type*} (l : List α) (f : α → List β) (g : β → Option γ) :
    (l.flatMap f).findSome? g = l.findSome? fun a => (f a).findSome? g := by
  induction l with
  | nil => rfl
  | cons a l ih =>
    rw [List.flatMap_cons, List.findSome?_append, ih, List.findSome?_cons]
    cases (f a).findSome? g <;> rfl

/-- A split of a sequence is a split of its second half, behind the first that
goes through. -/
theorem split_seq (u : Pattern σ) : split (seq r u) t s =
    (ends r s).findSome? fun n => (split u t (s.drop n)).map fun m => (n + m.1, m.2) := by
  rw [split, ends, findSome?_flatMap]
  refine congrArg (fun f => (ends r s).findSome? f) (funext fun n => ?_)
  rw [List.findSome?_map, split, List.map_findSome?]
  simp [Function.comp_def, List.drop_drop]

/-- A lazy repetition is cut at the first place where the rest can be read. -/
theorem split_fewest {p : σ → Bool} (h : split (fewest p) t s = some (k, d)) :
    ∀ k' < k, ends t (s.drop k') = [] := by
  rw [split, ends, List.findSome?_eq_some_iff] at h
  obtain ⟨before, n, after, hrange, hn, hbefore⟩ := h
  obtain ⟨d', hd', heq⟩ := Option.map_eq_some_iff.mp hn
  obtain ⟨rfl, rfl⟩ : n = k ∧ d' = d := by simpa using heq
  intro k' hk'
  rw [List.range_eq_range', List.range'_eq_append_iff] at hrange
  obtain ⟨j, -, rfl, hafter⟩ := hrange
  obtain rfl : n = j := by
    have hhead := congrArg List.head? hafter
    rw [List.head?_cons, List.head?_range'] at hhead
    split_ifs at hhead
    simpa using hhead
  have hnone := hbefore k' (List.mem_range'_1.mpr (by omega))
  simpa using hnone

end Split

end Pattern
