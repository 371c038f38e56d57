/-
UAgent/Agent/MemoryPasses.lean

What each pass of the memory redactor matches, in terms of the text and no
longer of the patterns: where the kept part ends, how far the dropped part
reaches, and which characters either of them can hold.  Each of the patterns
has at most one way to keep its part, so a match is known from where it
begins.
-/
import UAgent.Agent.MemoryRedaction

namespace UAgent

open Bytes Pattern

/-! ### Literals -/

theorem mem_ends_syms {ps : List (UInt8 → Bool)} {s : Bytes} {n : Nat} :
    n ∈ ends (syms ps) s ↔
      n = ps.length ∧ ∀ i (hi : i < ps.length), ∃ c ∈ s[i]?, ps[i] c = true := by
  induction ps generalizing s n with
  | nil => simp [syms]
  | cons p ps ih =>
    simp only [syms, mem_ends_seq, mem_ends_sym, ih, List.getElem?_drop, List.length_cons]
    constructor
    · rintro ⟨_, ⟨rfl, c, hc, hp⟩, j, ⟨rfl, hrest⟩, rfl⟩
      refine ⟨Nat.add_comm .., fun i hi => ?_⟩
      rcases i with - | i
      · exact ⟨c, by simpa [List.head?_eq_getElem?] using hc, hp⟩
      · simpa [Nat.add_comm] using hrest i (by omega)
    · rintro ⟨rfl, h⟩
      obtain ⟨c, hc, hp⟩ := h 0 (by omega)
      refine ⟨1, ⟨rfl, c, by simpa [List.head?_eq_getElem?] using hc, by simpa using hp⟩, _,
        ⟨rfl, fun i hi => ?_⟩, Nat.add_comm ..⟩
      obtain ⟨c, hc, hp⟩ := h (i + 1) (by omega)
      exact ⟨c, by simpa [Nat.add_comm] using hc, hp⟩

theorem mem_ends_literalNoCase {k s : Bytes} {n : Nat} :
    n ∈ ends (literalNoCase k) s ↔ n = k.length ∧ asciiLower k <+: asciiLower s := by
  rw [literalNoCase, mem_ends_syms, List.prefix_iff_getElem?]
  simp [asciiLower, Option.map_eq_some_iff]

theorem mem_ends_literal {k s : Bytes} {n : Nat} :
    n ∈ ends (literal k) s ↔ n = k.length ∧ k <+: s := by
  rw [literal, mem_ends_syms, List.prefix_iff_getElem?]
  simp

/-! ### Classes -/

/-- The characters of keywords, and all that vendor tokens hold. -/
def wordChar (c : UInt8) : Bool := alnumOr "_-" c

theorem wordChar_of_lowerChar : ∀ c, wordChar (lowerChar c) = true → wordChar c = true :=
  forall_byte (P := fun c => wordChar (lowerChar c) = true → wordChar c = true) (by decide)

theorem wordChar_keyword :
    (redactKeywords.all fun kw => kw.all fun k => wordChar (lowerChar k)) = true := by
  decide

theorem wordChar_of_reads_keyword (c : UInt8)
    (h : reads c (oneOf (redactKeywords.map literalNoCase)) = true) : wordChar c = true := by
  obtain ⟨r, hr, hc⟩ := reads_oneOf.mp h
  obtain ⟨kw, hkw, rfl⟩ := List.mem_map.mp hr
  obtain ⟨q, hq, hqc⟩ := reads_syms.mp hc
  obtain ⟨k, hk, rfl⟩ := List.mem_map.mp hq
  refine wordChar_of_lowerChar c ?_
  rw [beq_iff_eq.mp hqc]
  exact List.all_eq_true.mp (List.all_eq_true.mp wordChar_keyword kw hkw) k hk

/-- The pattern reads word characters only. -/
def OnlyWords (r : Pattern UInt8) : Prop := ∀ c, reads c r = true → wordChar c = true

namespace OnlyWords

variable {r t : Pattern UInt8} {q : UInt8 → Bool}

theorem seq (hr : OnlyWords r) (ht : OnlyWords t) : OnlyWords (.seq r t) := fun c h => by
  rw [reads, Bool.or_eq_true] at h
  exact h.elim (hr c) (ht c)

theorem opt (hr : OnlyWords r) : OnlyWords (.opt r) := fun c h => by
  rw [Pattern.opt, reads, Bool.or_eq_true] at h
  exact h.elim (hr c) fun h => absurd h Bool.false_ne_true

theorem many (hq : ∀ c, q c = true → wordChar c = true) (lo : Nat) : OnlyWords (.many q lo) := hq

theorem times (hq : ∀ c, q c = true → wordChar c = true) (n : Nat) : OnlyWords (.times q n) := by
  induction n with
  | zero => exact fun c h => absurd h Bool.false_ne_true
  | succ n ih =>
    have hsym : OnlyWords (.sym q) := hq
    exact hsym.seq ih

theorem literal {s : Bytes} (hs : s.all wordChar = true) : OnlyWords (UAgent.literal s) :=
  fun c h => by
    obtain ⟨q, hq, hqc⟩ := reads_syms.mp h
    obtain ⟨k, hk, rfl⟩ := List.mem_map.mp hq
    rw [beq_iff_eq.mp hqc]
    exact List.all_eq_true.mp hs k hk

end OnlyWords

theorem wordChar_of_alnumOr (extra : String) (h : (lit extra).all wordChar = true) (c : UInt8)
    (hc : alnumOr extra c = true) : wordChar c = true := by
  rw [alnumOr, Bool.or_eq_true] at hc
  rcases hc with hc | hc
  · rw [wordChar, alnumOr, hc, Bool.true_or]
  · exact List.all_eq_true.mp h c (of_decide_eq_true hc)

theorem wordChar_of_upperOrDigit (c : UInt8) (h : upperOrDigit c = true) : wordChar c = true := by
  rw [upperOrDigit, Bool.or_eq_true] at h
  rcases h with h | h <;> simp [wordChar, alnumOr, h]

/-- The vendor patterns read word characters. -/
theorem onlyWords_tokenShape : ∀ shape ∈ tokenShapes, OnlyWords shape.pattern := by
  have hunder := wordChar_of_alnumOr "_" (by decide)
  have hdash := wordChar_of_alnumOr "-" (by decide)
  have hboth := wordChar_of_alnumOr "_-" (by decide)
  have hbaprs : (lit "baprs").all wordChar = true := by decide
  have hkind : OnlyWords (.sym (oneOfChars "baprs")) := fun c h =>
    List.all_eq_true.mp hbaprs c (of_decide_eq_true h)
  have hgithub : ∀ marker : String, (lit marker).all wordChar = true →
      OnlyWords (githubShape marker).pattern :=
    fun marker h => (OnlyWords.literal h).seq (.many hunder 16)
  simp only [tokenShapes, List.mem_cons, List.not_mem_nil, or_false]
  rintro shape (rfl | rfl | rfl | rfl | rfl | rfl | rfl | rfl | rfl | rfl)
  · exact (OnlyWords.literal (by decide)).seq
      ((OnlyWords.literal (by decide)).opt.seq (.many hboth 16))
  · exact hgithub "ghp_" (by decide)
  · exact hgithub "gho_" (by decide)
  · exact hgithub "ghu_" (by decide)
  · exact hgithub "ghs_" (by decide)
  · exact hgithub "ghr_" (by decide)
  · exact hgithub "github_pat_" (by decide)
  · exact (OnlyWords.literal (by decide)).seq (.times wordChar_of_upperOrDigit 16)
  · exact (OnlyWords.literal (by decide)).seq
      (hkind.seq ((OnlyWords.literal (by decide)).seq (.many hdash 10)))
  · exact (OnlyWords.literal (by decide)).seq (.times hboth 35)

theorem wordChar_of_reads_knownToken (c : UInt8) (h : reads c knownToken = true) :
    wordChar c = true := by
  obtain ⟨r, hr, hc⟩ := reads_oneOf.mp h
  obtain ⟨shape, hshape, rfl⟩ := List.mem_map.mp hr
  exact onlyWords_tokenShape shape hshape c hc

theorem bearerChar_of_wordChar : ∀ c, wordChar c = true → bearerChar c = true :=
  forall_byte (P := fun c => wordChar c = true → bearerChar c = true) (by decide)

theorem valueChar_of_bearerChar : ∀ c, bearerChar c = true → valueChar c = true :=
  forall_byte (P := fun c => bearerChar c = true → valueChar c = true) (by decide)

/-- The characters between a keyword and its value. -/
def separator (c : UInt8) : Bool := blankChar c || assigns c || quote c

theorem wordChar_of_separator : ∀ c, separator c = true → wordChar c = false :=
  forall_byte (P := fun c => separator c = true → wordChar c = false) (by decide)

theorem blank_of_assigns : ∀ c, assigns c = true → blankChar c = false :=
  forall_byte (P := fun c => assigns c = true → blankChar c = false) (by decide)

theorem blank_of_quote : ∀ c, quote c = true → blankChar c = false :=
  forall_byte (P := fun c => quote c = true → blankChar c = false) (by decide)

theorem blank_of_valueChar : ∀ c, valueChar c = true → blankChar c = false ∧ quote c = false :=
  forall_byte (P := fun c => valueChar c = true → blankChar c = false ∧ quote c = false)
    (by decide)

/-! ### Assignments -/

/-- A value begins `k` characters into the text. -/
def ValueAt (s : Bytes) (k : Nat) : Prop := ∃ c ∈ s[k]?, valueChar c = true

/-- How long the keyword and its separator are, when a value follows. -/
def anchorLen (s : Bytes) : Nat :=
  let n := spanLen wordChar s
  let i := spanLen blankChar (s.drop n)
  let j := spanLen blankChar (s.drop (n + i + 1))
  n + i + 1 + j + if s[n + i + 1 + j]?.any quote then 1 else 0

theorem mem_ends_assignmentAnchor {s : Bytes} {k : Nat} (hk : k ∈ ends assignmentAnchor s) :
    ∃ n i j q, n ∈ ends (oneOf (redactKeywords.map literalNoCase)) s ∧
      i ≤ spanLen blankChar (s.drop n) ∧ (∃ a ∈ s[n + i]?, assigns a = true) ∧
      j ≤ spanLen blankChar (s.drop (n + i + 1)) ∧
      (q = 0 ∨ q = 1 ∧ ∃ c ∈ s[n + i + 1 + j]?, quote c = true) ∧ k = n + i + 1 + j + q := by
  simp only [assignmentAnchor, mem_ends_seq, mem_ends_many, mem_ends_sym, mem_ends_opt,
    List.drop_drop, List.head?_drop] at hk
  obtain ⟨n, hn, _, ⟨i, ⟨-, hi⟩, _, ⟨_, ⟨rfl, ha⟩, _, ⟨j, ⟨-, hj⟩, q, hq, rfl⟩, rfl⟩, rfl⟩, rfl⟩ :=
    hk
  exact ⟨n, i, j, q, hn, hi, ha, hj, hq.symm, by omega⟩

/-- A keyword and a separator in front of a value can be read in one way. -/
theorem anchor_spec {s : Bytes} {k : Nat} (hk : k ∈ ends assignmentAnchor s) (hv : ValueAt s k) :
    k = anchorLen s ∧ 0 < spanLen wordChar s ∧ spanLen wordChar s < k ∧
      ∀ x, spanLen wordChar s ≤ x → x < k → ∃ c ∈ s[x]?, separator c = true := by
  obtain ⟨n, i, j, q, hn, hi, ⟨a, ha, haa⟩, hj, hq, rfl⟩ := mem_ends_assignmentAnchor hk
  obtain ⟨v, hv, hvv⟩ := hv
  have hkw : n ≤ spanLen wordChar s := le_spanLen (le_length_of_mem_ends hn) fun c hc =>
    wordChar_of_reads_keyword c (reads_of_mem_take hn c hc)
  have hpos : 0 < n := lt_of_lt_of_le (by decide) (least_le hn)
  -- the characters of the separator, one by one
  have hsep : ∀ x, n ≤ x → x < n + i + 1 + j + q → ∃ c ∈ s[x]?, separator c = true := by
    intro x hle hlt
    by_cases hxi : x < n + i
    · obtain ⟨c, hc, hb⟩ := getElem?_of_lt_spanLen (n := x - n) (by omega : x - n < spanLen blankChar (s.drop n))
      rw [List.getElem?_drop, Nat.add_sub_cancel' hle] at hc
      exact ⟨c, hc, by simp [separator, hb]⟩
    · by_cases hxa : x = n + i
      · exact ⟨a, hxa ▸ ha, by simp [separator, haa]⟩
      · by_cases hxj : x < n + i + 1 + j
        · obtain ⟨c, hc, hb⟩ := getElem?_of_lt_spanLen (n := x - (n + i + 1))
            (by omega : x - (n + i + 1) < spanLen blankChar (s.drop (n + i + 1)))
          rw [List.getElem?_drop, Nat.add_sub_cancel' (by omega)] at hc
          exact ⟨c, hc, by simp [separator, hb]⟩
        · rcases hq with rfl | ⟨rfl, c, hc, hqc⟩
          · omega
          · exact ⟨c, (by omega : x = n + i + 1 + j) ▸ hc, by simp [separator, hqc]⟩
  have hword : spanLen wordChar s = n := by
    refine spanLen_eq hkw fun c hc => ?_
    obtain ⟨c', hc', hs⟩ := hsep n le_rfl (by omega)
    rw [Option.mem_unique hc hc']
    exact wordChar_of_separator c' hs
  have hblank : spanLen blankChar (s.drop n) = i := by
    refine spanLen_eq hi fun c hc => ?_
    rw [List.getElem?_drop] at hc
    rw [Option.mem_unique hc ha]
    exact blank_of_assigns a haa
  have hblank' : spanLen blankChar (s.drop (n + i + 1)) = j := by
    refine spanLen_eq hj fun c hc => ?_
    rw [List.getElem?_drop] at hc
    rcases hq with rfl | ⟨rfl, c', hc', hqc⟩
    · rw [Option.mem_unique hc hv]
      exact (blank_of_valueChar v hvv).1
    · rw [Option.mem_unique hc hc']
      exact blank_of_quote c' hqc
  refine ⟨?_, hword ▸ hpos, by omega, hword ▸ hsep⟩
  rw [anchorLen, hword, hblank, hblank']
  congr 1
  rcases hq with rfl | ⟨rfl, c', hc', hqc⟩
  · rw [show s[n + i + 1 + j]? = some v from hv]
    simp [(blank_of_valueChar v hvv).2]
  · rw [show s[n + i + 1 + j]? = some c' from hc']
    simp [hqc]

/-- Two keywords of one text share a separator, or one begins behind the other's
separator. -/
theorem anchor_shift {s : Bytes} {k k' x : Nat} (hk : k ∈ ends assignmentAnchor s)
    (hv : ValueAt s k) (hx : x < k) (hk' : k' ∈ ends assignmentAnchor (s.drop x))
    (hv' : ValueAt (s.drop x) k') : x + k' = k := by
  obtain ⟨heq, -, -, hsep⟩ := anchor_spec hk hv
  obtain ⟨heq', hpos', -, -⟩ := anchor_spec hk' hv'
  -- the second begins in the keyword of the first
  have hword : x < spanLen wordChar s := by
    by_contra hge
    obtain ⟨c, hc, hs⟩ := hsep x (by omega) hx
    obtain ⟨c', hc', hw⟩ := getElem?_of_lt_spanLen hpos'
    rw [List.getElem?_drop, Nat.add_zero] at hc'
    rw [Option.mem_unique hc' hc, wordChar_of_separator c hs] at hw
    exact absurd hw Bool.false_ne_true
  have hspan := spanLen_drop hword.le
  have hmove : ∀ m, x + (spanLen wordChar s - x + m) = spanLen wordChar s + m := fun m => by omega
  rw [heq, heq', anchorLen, anchorLen, hspan]
  simp only [List.drop_drop, List.getElem?_drop, Nat.add_assoc, hmove]
  have h0 := hmove 0
  simp only [Nat.add_zero] at h0
  rw [h0]

theorem assignmentAt_of {s : Bytes} {k : Nat} (hk : k ∈ ends assignmentAnchor s)
    (hv : ValueAt s k) : assignmentAt s = some (k, spanLen valueChar (s.drop k)) := by
  have hpos : 1 ≤ spanLen valueChar (s.drop k) := by
    obtain ⟨c, hc, hvc⟩ := hv
    rw [← List.head?_drop] at hc
    obtain ⟨t, ht⟩ := List.head?_eq_some_iff.mp hc
    rw [ht, spanLen_cons_of_pos hvc]
    omega
  refine split_eq_some hk (by rw [assignmentValue, head?_ends_many, if_pos hpos]) ?_
  intro k' hk' hne
  obtain ⟨d, hd⟩ := List.exists_mem_of_ne_nil _ hne
  have hv' : ValueAt s k' := by
    obtain ⟨hlo, hhi⟩ := mem_ends_many.mp hd
    obtain ⟨c, hc, hvc⟩ := getElem?_of_lt_spanLen (by omega : 0 < spanLen valueChar (s.drop k'))
    exact ⟨c, by simpa using hc, hvc⟩
  rw [(anchor_spec hk' hv').1, (anchor_spec hk hv).1]

/-- **An assignment**: a keyword and a separator are kept, and the value is
dropped up to the first character no value holds. -/
theorem assignmentAt_some {s : Bytes} {k d : Nat} (h : assignmentAt s = some (k, d)) :
    k ∈ ends assignmentAnchor s ∧ ValueAt s k ∧ d = spanLen valueChar (s.drop k) ∧ 0 < d := by
  obtain ⟨hk, hd⟩ := split_some h
  rw [assignmentValue, head?_ends_many, Option.ite_none_right_eq_some] at hd
  obtain ⟨hlo, hd⟩ := hd
  obtain ⟨c, hc, hvc⟩ := getElem?_of_lt_spanLen (by omega : 0 < spanLen valueChar (s.drop k))
  exact ⟨hk, ⟨c, by simpa using hc, hvc⟩, (Option.some.inj hd).symm,
    Option.some.inj hd ▸ hlo⟩

/-! ### Bearer tokens -/

/-- `Bearer` and the blanks behind it. -/
theorem bearerAnchor_spec {s : Bytes} {k : Nat} (hk : k ∈ ends bearerAnchor s) :
    6 < k ∧ k ≤ 6 + spanLen blankChar (s.drop 6) ∧ asciiLower (lit "Bearer") <+: asciiLower s := by
  simp only [bearerAnchor, mem_ends_seq, mem_ends_literalNoCase, mem_ends_many] at hk
  obtain ⟨_, ⟨rfl, hpre⟩, j, ⟨hlo, hhi⟩, rfl⟩ := hk
  have hlen : (lit "Bearer").length = 6 := by decide
  rw [hlen] at hhi ⊢
  exact ⟨by omega, by omega, hpre⟩

theorem lowerChar_bearer :
    ∀ i < 6, ∃ c ∈ (asciiLower (lit "Bearer"))[i]?, (c = 0x62 ↔ i = 0) := by
  decide

theorem lowerChar_of_blank : ∀ c, blankChar c = true → lowerChar c ≠ 0x62 :=
  forall_byte (P := fun c => blankChar c = true → lowerChar c ≠ 0x62) (by decide)

/-- No `Bearer` begins within `Bearer` and its blanks. -/
theorem bearerAnchor_shift {s : Bytes} {k k' x : Nat} (hk : k ∈ ends bearerAnchor s)
    (hpos : 0 < x) (hx : x < k) : k' ∉ ends bearerAnchor (s.drop x) := by
  intro hk'
  obtain ⟨-, hhi, hpre⟩ := bearerAnchor_spec hk
  obtain ⟨-, -, hpre'⟩ := bearerAnchor_spec hk'
  obtain ⟨b, hb, hbiff⟩ := lowerChar_bearer 0 (by omega)
  have hbegin : (asciiLower s)[x]? = some 0x62 := by
    have hat := List.prefix_iff_getElem?.mp hpre' 0 (by decide)
    rw [asciiLower, List.map_drop, List.getElem?_drop, Nat.add_zero] at hat
    rw [asciiLower, hat, ← List.getElem?_eq_getElem]
    rw [Option.mem_def.mp hb, hbiff.mpr rfl]
  by_cases hx6 : x < 6
  · -- the other letters of the word are no 'b'
    obtain ⟨c, hc, hciff⟩ := lowerChar_bearer x hx6
    have hlen : x < (asciiLower (lit "Bearer")).length := (List.getElem?_eq_some_iff.mp hc).1
    have hat := List.prefix_iff_getElem?.mp hpre x hlen
    rw [hbegin, ← List.getElem?_eq_getElem, Option.mem_def.mp hc] at hat
    exact absurd (hciff.mp (Option.some.inj hat).symm) (by omega)
  · obtain ⟨c, hc, hblank⟩ := getElem?_of_lt_spanLen (n := x - 6)
      (by omega : x - 6 < spanLen blankChar (s.drop 6))
    rw [List.getElem?_drop, Nat.add_sub_cancel' (by omega)] at hc
    rw [asciiLower, List.getElem?_map, Option.mem_def.mp hc] at hbegin
    exact lowerChar_of_blank c hblank (Option.some.inj hbegin)

theorem blank_of_bearerChar : ∀ c, bearerChar c = true → blankChar c = false :=
  fun c hc => (blank_of_valueChar c (valueChar_of_bearerChar c hc)).1

/-- In front of a token, `Bearer` keeps all its blanks. -/
theorem bearerAnchor_eq {s : Bytes} {k : Nat} (hk : k ∈ ends bearerAnchor s)
    (ht : 0 < spanLen bearerChar (s.drop k)) : k = 6 + spanLen blankChar (s.drop 6) := by
  obtain ⟨hlo, hhi, -⟩ := bearerAnchor_spec hk
  obtain ⟨c, hc, hb⟩ := getElem?_of_lt_spanLen ht
  rw [List.getElem?_drop, Nat.add_zero] at hc
  have hspan := spanLen_eq (p := blankChar) (s := s.drop 6) (n := k - 6) (by omega) fun c' hc' => by
    rw [List.getElem?_drop, Nat.add_sub_cancel' hlo.le] at hc'
    rw [Option.mem_unique hc' hc]
    exact blank_of_bearerChar c hb
  omega

theorem bearerAt_of {s : Bytes} {k : Nat} (hk : k ∈ ends bearerAnchor s)
    (ht : 12 ≤ spanLen bearerChar (s.drop k)) :
    bearerAt s = some (k, spanLen bearerChar (s.drop k)) := by
  refine split_eq_some hk (by rw [bearerToken, head?_ends_many, if_pos ht]) ?_
  intro k' hk' hne
  obtain ⟨d, hd⟩ := List.exists_mem_of_ne_nil _ hne
  obtain ⟨hlo, hhi⟩ := mem_ends_many.mp hd
  rw [bearerAnchor_eq hk' (by omega), bearerAnchor_eq hk (by omega)]

/-- **A bearer token**: `Bearer` is kept, and all token characters behind it are
dropped when there are twelve of them. -/
theorem bearerAt_some {s : Bytes} {k d : Nat} (h : bearerAt s = some (k, d)) :
    k ∈ ends bearerAnchor s ∧ d = spanLen bearerChar (s.drop k) ∧ 12 ≤ d := by
  obtain ⟨hk, hd⟩ := split_some h
  rw [bearerToken, head?_ends_many, Option.ite_none_right_eq_some] at hd
  exact ⟨hk, (Option.some.inj hd.2).symm, Option.some.inj hd.2 ▸ hd.1⟩

/-! ### Vendor tokens -/

theorem least_knownToken : 0 < least knownToken := by decide

/-- **A vendor token** is dropped whole. -/
theorem knownTokenAt_some {s : Bytes} {k d : Nat} (h : knownTokenAt s = some (k, d)) :
    k = 0 ∧ (ends knownToken s).head? = some d ∧ 0 < d := by
  rw [knownTokenAt, split_empty] at h
  obtain ⟨d', hd', heq⟩ := Option.map_eq_some_iff.mp h
  obtain ⟨rfl, rfl⟩ : 0 = k ∧ d' = d := by simpa using heq
  exact ⟨rfl, hd', least_knownToken.trans_le (least_le (List.mem_of_head? hd'))⟩

/-! ### Private keys -/

/-- Every character but the dash. -/
def notDash (c : UInt8) : Bool := c ≠ 0x2d

theorem notDash_of_reads_label : ∀ c,
    reads c (opt (seq (many labelChar 1) (literal (lit " ")))) = true → notDash c = true :=
  forall_byte (P := fun c =>
    reads c (opt (seq (many labelChar 1) (literal (lit " ")))) = true → notDash c = true)
    (by decide)

theorem privateKey_dash : ∀ i < 12, ∃ c ∈ (lit "PRIVATE KEY-----")[i]?,
    notDash c = decide (i < 11) := by
  decide

theorem length_privateKey : (lit "PRIVATE KEY-----").length = 16 := rfl

/-- A line around a key ends at the dashes behind its label. -/
theorem mem_ends_pemLine {head : String} {s : Bytes} {h : Nat} (hh : h ∈ ends (pemLine head) s) :
    lit head <+: s ∧
      h = (lit head).length + (spanLen notDash (s.drop (lit head).length) + 5) := by
  simp only [pemLine, mem_ends_seq] at hh
  obtain ⟨_, hn, _, ⟨q, hq, _, hrest, rfl⟩, rfl⟩ := hh
  obtain ⟨rfl, hpre⟩ := mem_ends_literal.mp hn
  obtain ⟨rfl, hkey⟩ := mem_ends_literal.mp hrest
  have hlen := length_privateKey
  have hat : ∀ i < 12, ∃ c ∈ (s.drop (lit head).length)[q + i]?, notDash c = decide (i < 11) := by
    intro i hi
    obtain ⟨c, hc, hdash⟩ := privateKey_dash i hi
    have hget := List.prefix_iff_getElem?.mp hkey i (by omega)
    rw [List.getElem?_drop, ← List.getElem?_eq_getElem, Option.mem_def.mp hc] at hget
    exact ⟨c, hget, hdash⟩
  have hspan : spanLen notDash (s.drop (lit head).length) = q + 11 := by
    refine spanLen_eq (le_spanLen ?_ fun c hc => ?_) fun c hc => ?_
    · obtain ⟨c, hc, -⟩ := hat 11 (by omega)
      exact (List.getElem?_eq_some_iff.mp hc).1.le
    · rw [List.take_add, List.mem_append] at hc
      rcases hc with hc | hc
      · exact notDash_of_reads_label c (reads_of_mem_take hq c hc)
      · obtain ⟨i, hi, rfl⟩ := List.mem_take_iff_getElem.mp hc
        obtain ⟨c, hc, hdash⟩ := hat i (by omega)
        rw [← List.getElem?_drop, List.getElem?_eq_getElem (by omega)] at hc
        rw [Option.some.inj hc, hdash]
        exact decide_eq_true (by omega)
    · obtain ⟨c', hc', hdash⟩ := hat 11 (by omega)
      rw [Option.mem_unique hc hc', hdash]
      rfl
  rw [hlen, hspan]
  exact ⟨hpre, by omega⟩

/-- A BEGIN or an END line can be read in one way. -/
theorem pemLine_unique {head : String} {s : Bytes} {h h' : Nat} (hh : h ∈ ends (pemLine head) s)
    (hh' : h' ∈ ends (pemLine head) s) : h = h' := by
  rw [(mem_ends_pemLine hh).2, (mem_ends_pemLine hh').2]

theorem spanLen_true (s : Bytes) : spanLen (fun _ => true) s = s.length := by
  rw [spanLen, List.takeWhile_eq_self_iff.mpr fun _ _ => rfl]

/-- **A private key**: its BEGIN line, and everything to the end of the first END
line behind it. -/
theorem privateKey_split {s : Bytes} {m l : Nat}
    (h : split privateKeyBody privateKeyEnd s = some (m, l)) :
    ∃ n t, n ∈ ends privateKeyBegin s ∧ m = n + t ∧ l ∈ ends privateKeyEnd (s.drop (n + t)) ∧
      ∀ t' < t, ends privateKeyEnd (s.drop (n + t')) = [] := by
  rw [privateKeyBody, split_seq] at h
  obtain ⟨n, hn, hsome⟩ := List.exists_of_findSome?_eq_some h
  obtain ⟨⟨t, l'⟩, htl, heq⟩ := Option.map_eq_some_iff.mp hsome
  obtain ⟨rfl, rfl⟩ : n + t = m ∧ l' = l := by simpa using heq
  refine ⟨n, t, hn, rfl, ?_, fun t' ht' => ?_⟩
  · simpa [List.drop_drop] using mem_of_split_some htl
  · simpa [List.drop_drop] using split_fewest htl t' ht'

theorem privateKeyAt_eq (s : Bytes) : privateKeyAt s =
    (split privateKeyBody privateKeyEnd s).map fun m => (0, m.1 + m.2) := by
  rw [privateKeyAt, split_empty, head?_ends_seq, Option.map_map]
  rfl

theorem privateKeyEnd_pos {s : Bytes} {l : Nat} (hl : l ∈ ends privateKeyEnd s) : 0 < l := by
  have hlen := (mem_ends_pemLine hl).2
  omega

/-- A BEGIN line with an END line somewhere behind it is a private key. -/
theorem privateKey_ne_none {s : Bytes} {n t l : Nat} (hn : n ∈ ends privateKeyBegin s)
    (hl : l ∈ ends privateKeyEnd (s.drop (n + t))) :
    split privateKeyBody privateKeyEnd s ≠ none := by
  have hlen := le_length_of_mem_ends hl
  have hpos := privateKeyEnd_pos hl
  rw [List.length_drop] at hlen
  have hbody : n + t ∈ ends privateKeyBody s :=
    mem_ends_seq.mpr ⟨n, hn, t, mem_ends_fewest.mpr (by rw [spanLen_true, List.length_drop]; omega),
      rfl⟩
  exact split_ne_none hbody hl

end UAgent
