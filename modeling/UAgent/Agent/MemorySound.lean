/-
UAgent/Agent/MemorySound.lean

Why the passes of the memory redactor take out what stands: each of the five
finds the readings it knows that are intact, whatever the passes before it
have written, and matches nothing else.

A pass reads an edited text.  What follows a byte of the original there is
the original up to the first byte that was taken out (`Traced.Derived.run`),
and a pattern that reads no bracket has, in that text, the ends it has in the
original, less the ones behind that byte (`RedactedTo.run`).
-/
import UAgent.Agent.MemoryStanding

namespace UAgent

open Bytes Pattern Piece Traced

section Runs

variable {text : Bytes} {p : Nat} {T u v : List (Traced UInt8)} {b : UInt8} {x : Nat}

/-! ### Reading an edited text -/

/-- What is read from a byte of the original on: the original, up to a byte that
was taken out. -/
theorem RedactedTo.run (hT : RedactedTo text p T) (h : T = u ++ (b, some x) :: v) :
    ∃ n, 0 < n ∧ x + n ≤ text.length ∧ x + n ∉ origins T ∧
      (∀ m ≤ n, ((b, some x) :: v).take m = positions x ((text.drop x).take m)) ∧
      (∀ r : Pattern UInt8, reads (ch '[') r = false →
        ends r (((b, some x) :: v).map Prod.fst) = (ends r (text.drop x)).filter (· ≤ n)) ∧
      ∀ q : UInt8 → Bool, q (ch '[') = false → ∀ k ≤ n,
        spanLen q ((((b, some x) :: v).map Prod.fst).drop k) =
          min (n - k) (spanLen q (text.drop (x + k))) := by
  obtain ⟨n, rest, hpos, hle, heq, hnot, hhead⟩ := hT.derived.run h
  have hlen : ((text.drop x).take n).length = n :=
    List.length_take_of_le (by rw [List.length_drop]; omega)
  have hbytes : ((b, some x) :: v).map Prod.fst = (text.drop x).take n ++ rest.map Prod.fst := by
    rw [heq, List.map_append, map_fst_positions]
  refine ⟨n, hpos, hle, hnot, fun m hm => ?_, fun r hr => ?_, fun q hq k hk => ?_⟩
  · rw [heq, List.take_append_of_le_length (by rw [length_positions, hlen]; exact hm),
      take_positions, List.take_take, min_eq_left hm]
  · rw [hbytes]
    rcases rest with - | ⟨⟨c, o⟩, rest⟩
    · rw [List.map_nil, List.append_nil, ends_take]
    · obtain ⟨-, rfl⟩ := hhead (c, o) rfl
      rw [List.map_cons, ends_append_cons hr, ends_take]
  · rw [hbytes, List.drop_append_of_le_length (by rw [hlen]; exact hk), List.drop_take,
      List.drop_drop]
    rcases rest with - | ⟨⟨c, o⟩, rest⟩
    · rw [List.map_nil, List.append_nil, spanLen_take]
    · obtain ⟨-, rfl⟩ := hhead (c, o) rfl
      rw [List.map_cons, spanLen_append_cons hq, spanLen_take]

/-- A run of the original that is all there is not interrupted. -/
theorem le_of_origins {n m : Nat} (hnot : x + n ∉ origins T)
    (h : ∀ i, x ≤ i → i < x + m → i ∈ origins T) : m ≤ n := by
  by_contra hlt
  exact hnot (h (x + n) (by omega) (by omega))

/-- The positions of a part of a run. -/
theorem mem_origins_cut {L : List (Traced UInt8)} {k d j : Nat}
    (h : L.take (k + d) = positions x ((text.drop x).take (k + d)))
    (hle : x + (k + d) ≤ text.length) :
    j ∈ origins ((L.drop k).take d) ↔ x + k ≤ j ∧ j < x + k + d := by
  have hcut : (L.drop k).take d = (L.take (k + d)).drop k := by
    rw [List.drop_take, Nat.add_sub_cancel_left]
  rw [hcut, h, drop_positions, mem_origins_positions, List.length_drop,
    List.length_take_of_le (by rw [List.length_drop]; omega)]
  omega

/-- What is read from a byte of the original on is still there. -/
theorem mem_origins_of_take {L : List (Traced UInt8)} {n : Nat} (h : T = u ++ L)
    (htake : L.take n = positions x ((text.drop x).take n)) (hle : x + n ≤ text.length) {i : Nat}
    (hi : x ≤ i) (hi' : i < x + n) : i ∈ origins T := by
  have hin : i ∈ origins (L.take n) := by
    rw [htake, mem_origins_positions, List.length_take_of_le (by rw [List.length_drop]; omega)]
    exact ⟨hi, hi'⟩
  rw [h, origins_append, List.mem_append]
  exact Or.inr (((List.take_sublist n L).filterMap _).subset hin)

/-- A match that begins in a mark stays in it, when its pattern reads nothing that
closes a mark. -/
theorem RedactedTo.dry_of_ends (hT : RedactedTo text p T) {r : Pattern UInt8} {m : Nat}
    (hr : reads (ch ']') r = false) (h : T = u ++ (b, none) :: v)
    (hm : m ∈ ends r (((b, none) :: v).map Prod.fst)) :
    origins (((b, none) :: v).take m) = [] :=
  hT.derived.dry h fun t ht hclose => by
    have hmem : t.1 ∈ (((b, none) :: v).map Prod.fst).take m := by
      rw [← List.map_take]
      exact List.mem_map_of_mem ht
    have hreads := reads_of_mem_take hm _ hmem
    rw [show t.1 = ch ']' from hclose, hr] at hreads
    exact Bool.false_ne_true hreads

end Runs

/-! ### The text itself -/

section Start

/-- Before the first pass everything is there. -/
theorem redactedTo_zero (text : Bytes) : RedactedTo text 0 (positions 0 text) where
  derived := Derived.refl _ _ text
  inked b h := by
    obtain ⟨u, v, huv⟩ := List.append_of_mem h
    have := (positions_eq_append_cons (i := 0) huv (Or.inr rfl)).1
    simp at this
  taken i hi := by
    refine iff_of_false (fun hnot => ?_) fun ⟨F, _, hpass, _⟩ => Nat.not_lt_zero _ hpass
    exact hnot (mem_origins_positions.mpr ⟨Nat.zero_le i, by omega⟩)

/-- A suffix of the text, where one of its bytes stands. -/
theorem cons_eq_positions {text : Bytes} {u v : List (Traced UInt8)} {b : UInt8} {x : Nat}
    (h : positions 0 text = u ++ (b, some x) :: v) :
    (b, some x) :: v = positions x (text.drop x) := by
  obtain ⟨-, hx, hb, hv⟩ := positions_eq_append_cons (i := x) h (Or.inl rfl)
  rw [Nat.zero_add] at hx
  rw [← hx] at hb hv
  obtain ⟨hlt, hget⟩ := List.getElem?_eq_some_iff.mp hb
  rw [List.drop_eq_getElem_cons hlt, hget, positions, hv]

/-- A form that is read in one way is the first that begins where it does. -/
theorem IsReading.first {text : Bytes} {T : List (Traced UInt8)} {F : CredentialForm}
    (hF : IsReading text F) (hone : F.kind ≠ .privateKey) (G : CredentialForm)
    (hG : IsReading text G) (hkind : G.kind = F.kind) (hstart : G.start = F.start)
    (_ : G.Intact T) : G = F ∨ F.Before G ∧ F.redacted.Holds F.start :=
  Or.inl (hG.ext hF hkind hstart fun hkey => absurd (hkind ▸ hkey) hone)

/-- The first pass reads the text as it is. -/
theorem passOn_assignment (text : Bytes) : PassOn text .assignment (positions 0 text) where
  fire u v b x k d h hm := by
    have hcons := cons_eq_positions h
    rw [hcons, map_fst_positions] at hm
    have hF : formAt text .assignment x = some _ := congrArg (Option.map _) hm
    have hle := split_le_length hm
    have hread := (isReading_of_formAt hF).1
    refine ⟨_, hread, rfl, rfl, fun a ha i hi => ?_,
      hread.first (show CredentialKind.assignment ≠ .privateKey by decide), fun j hj => ?_⟩
    · have hstop := ((readingsAt_spec hread).2.2.2.2.2 a ha).2
      exact mem_origins_positions.mpr ⟨Nat.zero_le i, by have := hi.2; omega⟩
    · rw [hcons, drop_positions, take_positions, mem_origins_positions,
        List.length_take_of_le (by rw [List.length_drop]; omega)]
      exact Iff.rfl
  dry u v b k d h _ := by
    have := (positions_eq_append_cons (i := 0) h (Or.inr rfl)).1
    simp at this
  hit F u v b hF hkind _ h := by
    have hcons := cons_eq_positions h
    rw [IsReading, hkind, mem_readingsAt_of_lt (by decide)] at hF
    obtain ⟨m, hm, -⟩ := Option.map_eq_some_iff.mp hF
    rw [hcons, map_fst_positions, passMatcher, hm]
    exact Option.some_ne_none m

end Start

/-! ### Bearer tokens -/

section Bearer

variable {text : Bytes} {T u v : List (Traced UInt8)} {F : CredentialForm}

theorem readingsAt_assignment {x : Nat} (h : F ∈ readingsAt text .assignment x) :
    ∃ k, k ∈ ends assignmentAnchor (text.drop x) ∧ ValueAt (text.drop x) k ∧
      F.redacted = ⟨x + k, x + k + spanLen valueChar (text.drop (x + k))⟩ := by
  rw [mem_readingsAt_of_lt (by decide)] at h
  obtain ⟨⟨k, d⟩, hm, rfl⟩ := Option.map_eq_some_iff.mp h
  obtain ⟨hk, hv, hd, -⟩ := assignmentAt_some hm
  exact ⟨k, hk, hv, by rw [hd, List.drop_drop]⟩

theorem readingsAt_bearer {x : Nat} (h : F ∈ readingsAt text .bearer x) :
    ∃ k, k ∈ ends bearerAnchor (text.drop x) ∧ 12 ≤ spanLen bearerChar (text.drop (x + k)) ∧
      F.redacted = ⟨x + k, x + k + spanLen bearerChar (text.drop (x + k))⟩ ∧
      F.anchors = [⟨x, x + k + 12⟩] := by
  rw [mem_readingsAt_of_lt (by decide)] at h
  obtain ⟨⟨k, d⟩, hm, rfl⟩ := Option.map_eq_some_iff.mp h
  obtain ⟨hk, hd, hlong⟩ := bearerAt_some hm
  rw [List.drop_drop] at hd
  exact ⟨k, hk, hd ▸ hlong, by rw [hd], rfl⟩

/-- A span of the original that holds a position holds what is connected to it. -/
theorem lt_span_of_forall {q : UInt8 → Bool} {a i j : Nat} (hi : a ≤ i)
    (hspan : i < a + spanLen q (text.drop a)) (hij : i ≤ j)
    (hrun : ∀ y, i ≤ y → y ≤ j → ∃ c ∈ text[y]?, q c = true) :
    j < a + spanLen q (text.drop a) := by
  have hlt := lt_spanLen_of_forall (p := q) (s := text.drop a) (i := i - a) (j := j - a) (by omega)
    fun y hy hyj => by
      obtain ⟨c, hc, hq⟩ := hrun (a + y) (by omega) (by omega)
      exact ⟨c, by rwa [List.getElem?_drop], hq⟩
  omega

theorem getElem?_of_lt_span {q : UInt8 → Bool} {a y : Nat} (ha : a ≤ y)
    (hy : y < a + spanLen q (text.drop a)) : ∃ c ∈ text[y]?, q c = true := by
  obtain ⟨c, hc, hq⟩ := getElem?_of_lt_spanLen (n := y - a)
    (by omega : y - a < spanLen q (text.drop a))
  rw [List.getElem?_drop, Nat.add_sub_cancel' ha] at hc
  exact ⟨c, hc, hq⟩

theorem formAt_bearer_of {x k : Nat} (hk : k ∈ ends bearerAnchor (text.drop x))
    (ht : 12 ≤ spanLen bearerChar (text.drop (x + k))) :
    formAt text .bearer x = some ⟨.bearer, x,
      ⟨x + k, x + k + spanLen bearerChar (text.drop (x + k))⟩,
      ⟨x + k, x + k + spanLen bearerChar (text.drop (x + k))⟩, [⟨x, x + k + 12⟩]⟩ := by
  rw [← List.drop_drop] at ht ⊢
  rw [formAt, bearerAt_of hk ht]
  rfl

/-- Of a run of value characters, the assignments take out the rest when they take
out one. -/
theorem RedactedTo.rest_of_value (hT : RedactedTo text 1 T) {i j : Nat} (hi : i < text.length)
    (hgone : i ∉ origins T) (hij : i ≤ j)
    (hrun : ∀ y, i ≤ y → y ≤ j → ∃ c ∈ text[y]?, valueChar c = true) : j ∉ origins T := by
  obtain ⟨F, hF, hpass, hholds⟩ := (hT.taken i hi).mp hgone
  have hkind : F.kind = .assignment := CredentialKind.pass_injective (Nat.lt_one_iff.mp hpass)
  have hread := (mem_standingReadings.mp hF).1
  rw [IsReading, hkind] at hread
  obtain ⟨k, -, -, hredacted⟩ := readingsAt_assignment hread
  obtain ⟨c, hc, -⟩ := hrun j hij le_rfl
  refine (hT.taken j (List.getElem?_eq_some_iff.mp hc).1).mpr ⟨F, hF, hpass, ?_⟩
  rw [hredacted] at hholds ⊢
  exact ⟨hholds.1.trans hij, lt_span_of_forall hholds.1 hholds.2 hij hrun⟩

theorem reads_bearer : reads (ch '[') bearerAnchor = false ∧ bearerChar (ch '[') = false ∧
    reads (ch ']') (seq bearerAnchor bearerToken) = false := by
  decide

/-- The second pass finds the tokens the first has left, up to their ends or up to
a value that was taken out of them. -/
theorem passOn_bearer (hT : RedactedTo text 1 T) : PassOn text .bearer T where
  fire u v b x k d h hm := by
    obtain ⟨n, -, hle, hnot, htake, hends, hspan⟩ := hT.run h
    obtain ⟨hk, hd, hlong⟩ := bearerAt_some hm
    rw [hends _ reads_bearer.1, List.mem_filter, decide_eq_true_eq] at hk
    rw [hspan _ reads_bearer.2.1 k hk.2] at hd
    have hF := formAt_bearer_of hk.1 (by omega)
    have hcut : ∀ j, j ∈ origins ((((b, some x) :: v).drop k).take d) ↔
        x + k ≤ j ∧ j < x + k + d :=
      fun j => mem_origins_cut (htake (k + d) (by omega)) (by omega)
    simp only [hcut]
    have hread := (isReading_of_formAt hF).1
    refine ⟨_, hread, rfl, rfl, ?_,
      hread.first (show CredentialKind.bearer ≠ .privateKey by decide),
      fun j hmem => ⟨fun hj => ?_, fun hj => ?_⟩⟩
    · simp only [CredentialForm.Intact, List.mem_singleton, forall_eq]
      intro i hi
      have hlt : i < x + (k + 12) := Nat.add_assoc x k 12 ▸ hi.2
      exact mem_origins_of_take h (htake (k + 12) (by omega)) (by omega) hi.1 hlt
    · simp only [Span.Holds] at hj
      refine ⟨hj.1, ?_⟩
      by_contra hge
      -- the token goes on behind a byte that is gone, so a value has taken the rest
      have hrun : ∀ y, x + n ≤ y → y ≤ j → ∃ c ∈ text[y]?, valueChar c = true := by
        intro y hy hyj
        obtain ⟨c, hc, hb⟩ := getElem?_of_lt_span (y := y) (by omega : x + k ≤ y)
          (lt_of_le_of_lt hyj hj.2)
        exact ⟨c, hc, valueChar_of_bearerChar c hb⟩
      obtain ⟨c, hc, -⟩ := hrun (x + n) le_rfl (by omega)
      have hlt := (List.getElem?_eq_some_iff.mp hc).1
      exact hT.rest_of_value hlt hnot (by omega) hrun hmem
    · simp only [Span.Holds]
      omega
  dry u v b k d h hm := by
    obtain ⟨hk, hd⟩ := split_some hm
    exact hT.dry_of_ends reads_bearer.2.2 h
      (mem_ends_seq.mpr ⟨k, hk, d, List.mem_of_head? hd, rfl⟩)
  hit F u v b hF hkind hall h := by
    obtain ⟨n, -, hle, hnot, htake, hends, hspan⟩ := hT.run h
    rw [IsReading, hkind] at hF
    obtain ⟨k, hk, htoken, -, hanchors⟩ := readingsAt_bearer hF
    have hn : k + 12 ≤ n := le_of_origins hnot fun i hi hi' =>
      hall _ (hanchors ▸ List.mem_singleton_self _) i ⟨hi, by simpa [Nat.add_assoc] using hi'⟩
    have hk' : k ∈ ends bearerAnchor (((b, some F.start) :: v).map Prod.fst) := by
      rw [hends _ reads_bearer.1, List.mem_filter]
      exact ⟨hk, decide_eq_true (by omega)⟩
    have hlong : 12 ≤ spanLen bearerChar ((((b, some F.start) :: v).map Prod.fst).drop k) := by
      rw [hspan _ reads_bearer.2.1 k (by omega)]
      omega
    rw [passMatcher, bearerAt_of hk' hlong]
    exact Option.some_ne_none _

end Bearer

/-! ### Vendor tokens -/

section Vendor

variable {text : Bytes} {T u v : List (Traced UInt8)} {F : CredentialForm}

/-- In front of what goes with an assignment or a bearer token stands a character
no vendor token holds. -/
theorem separator_before_redacted (hF : IsReading text F) (hpass : F.kind.pass < 2) :
    0 < F.redacted.start ∧ ∃ c ∈ text[F.redacted.start - 1]?, wordChar c = false := by
  have hkind : F.kind = .assignment ∨ F.kind = .bearer := by
    cases hk : F.kind <;> simp_all [CredentialKind.pass]
  rw [IsReading] at hF
  rcases hkind with hkind | hkind <;> rw [hkind] at hF
  · obtain ⟨k, hk, hv, hredacted⟩ := readingsAt_assignment hF
    obtain ⟨-, hpos, hlong, hsep⟩ := anchor_spec hk hv
    obtain ⟨c, hc, hcs⟩ := hsep (k - 1) (by omega) (by omega)
    rw [List.getElem?_drop] at hc
    rw [hredacted]
    exact ⟨by simp only; omega, c, by simpa [Nat.add_sub_assoc (by omega : 1 ≤ k)] using hc,
      wordChar_of_separator c hcs⟩
  · obtain ⟨k, hk, -, hredacted, -⟩ := readingsAt_bearer hF
    obtain ⟨hlo, hhi, -⟩ := bearerAnchor_spec hk
    obtain ⟨c, hc, hblank⟩ := getElem?_of_lt_spanLen (n := k - 1 - 6)
      (by omega : k - 1 - 6 < spanLen blankChar ((text.drop F.start).drop 6))
    rw [List.getElem?_drop, List.getElem?_drop,
      show F.start + (6 + (k - 1 - 6)) = F.start + k - 1 by omega] at hc
    rw [hredacted]
    exact ⟨by simp only; omega, c, hc, wordChar_of_separator c (by simp [separator, hblank])⟩

/-- Of a run of vendor characters, the first two passes take out all or nothing:
they have taken the first when they have taken any. -/
theorem RedactedTo.first_of_word (hT : RedactedTo text 2 T) {i j : Nat} (hj : j < text.length)
    (hgone : j ∉ origins T) (hij : i ≤ j)
    (hrun : ∀ y, i ≤ y → y ≤ j → ∃ c ∈ text[y]?, wordChar c = true) : i ∉ origins T := by
  obtain ⟨F, hF, hpass, hholds⟩ := (hT.taken j hj).mp hgone
  obtain ⟨hpos, c, hc, hnot⟩ := separator_before_redacted (mem_standingReadings.mp hF).1 hpass
  refine (hT.taken i (hij.trans_lt hj)).mpr ⟨F, hF, hpass, ?_, lt_of_le_of_lt hij hholds.2⟩
  by_contra hlt
  obtain ⟨c', hc', hword⟩ := hrun (F.redacted.start - 1) (by omega) (by have := hholds.1; omega)
  rw [Option.mem_unique hc' hc, hnot] at hword
  exact Bool.false_ne_true hword

theorem readingsAt_vendor {x : Nat} (h : F ∈ readingsAt text .vendorToken x) :
    ∃ d, (ends knownToken (text.drop x)).head? = some d ∧ F.anchors = [⟨x, x + d⟩] := by
  rw [mem_readingsAt_of_lt (by decide)] at h
  obtain ⟨⟨k, d⟩, hm, rfl⟩ := Option.map_eq_some_iff.mp h
  exact ⟨d, (knownTokenAt_some hm).2.1, rfl⟩

theorem formAt_vendor_of {x d : Nat} (h : (ends knownToken (text.drop x)).head? = some d) :
    formAt text .vendorToken x = some ⟨.vendorToken, x, ⟨x, x + d⟩, ⟨x, x + d⟩, [⟨x, x + d⟩]⟩ := by
  rw [formAt, knownTokenAt, split_empty, h]
  rfl

theorem reads_knownToken : reads (ch '[') knownToken = false ∧ reads (ch ']') knownToken = false := by
  decide

theorem head?_filter {l : List Nat} {q : Nat → Bool} {d : Nat} (h : l.head? = some d)
    (hq : q d = true) : (l.filter q).head? = some d := by
  obtain ⟨t, rfl⟩ := List.head?_eq_some_iff.mp h
  simp [hq]

/-- The third pass finds the vendor tokens that are left, which are whole. -/
theorem passOn_vendorToken (hT : RedactedTo text 2 T) : PassOn text .vendorToken T where
  fire u v b x k d h hm := by
    obtain ⟨n, -, hle, hnot, htake, hends, -⟩ := hT.run h
    obtain ⟨rfl, hd, -⟩ := knownTokenAt_some hm
    rw [hends _ reads_knownToken.1] at hd
    have hmem := (List.mem_filter.mp (List.mem_of_head? hd)).1
    obtain ⟨d', hd'⟩ : ∃ d', (ends knownToken (text.drop x)).head? = some d' :=
      Option.isSome_iff_exists.mp (List.isSome_head?.mpr (List.ne_nil_of_mem hmem))
    have hlen := le_length_of_mem_ends (List.mem_of_head? hd')
    rw [List.length_drop] at hlen
    -- were the token cut short, its beginning would be gone as well
    have hwhole : d' ≤ n := by
      by_contra hlt
      have hrun : ∀ y, x ≤ y → y ≤ x + n → ∃ c ∈ text[y]?, wordChar c = true := by
        intro y hy hyn
        have hlt' : y - x < (text.drop x).length := by rw [List.length_drop]; omega
        have hin : (text.drop x)[y - x] ∈ (text.drop x).take d' :=
          List.mem_take_iff_getElem.mpr ⟨y - x, by omega, rfl⟩
        refine ⟨_, ?_, wordChar_of_reads_knownToken _
          (reads_of_mem_take (List.mem_of_head? hd') _ hin)⟩
        have hget := List.getElem?_eq_getElem hlt'
        rwa [List.getElem?_drop, Nat.add_sub_cancel' hy] at hget
      refine hT.first_of_word (by omega) hnot (by omega) hrun ?_
      rw [h, origins_append, origins_cons_some]
      simp
    obtain rfl : d = d' := by
      rw [head?_filter hd' (decide_eq_true hwhole)] at hd
      exact (Option.some.inj hd).symm
    have hcut : ∀ j, j ∈ origins ((((b, some x) :: v).drop 0).take d) ↔
        x + 0 ≤ j ∧ j < x + 0 + d :=
      fun j => mem_origins_cut (htake (0 + d) (by omega)) (by omega)
    simp only [hcut]
    have hread := (isReading_of_formAt (formAt_vendor_of hd')).1
    refine ⟨_, hread, rfl, rfl, ?_,
      hread.first (show CredentialKind.vendorToken ≠ .privateKey by decide), fun j _ => Iff.rfl⟩
    simp only [CredentialForm.Intact, List.mem_singleton, forall_eq]
    exact fun i hi => mem_origins_of_take h (htake d hwhole) (by omega) hi.1 hi.2
  dry u v b k d h hm := by
    obtain ⟨rfl, hd, -⟩ := knownTokenAt_some hm
    exact hT.dry_of_ends reads_knownToken.2 h (by simpa using List.mem_of_head? hd)
  hit F u v b hF hkind hall h := by
    obtain ⟨n, -, hle, hnot, htake, hends, -⟩ := hT.run h
    rw [IsReading, hkind] at hF
    obtain ⟨d, hd, hanchors⟩ := readingsAt_vendor hF
    have hn : d ≤ n := le_of_origins hnot fun i hi hi' =>
      hall ⟨F.start, F.start + d⟩ (by rw [hanchors]; exact List.mem_cons_self) i ⟨hi, hi'⟩
    rw [passMatcher, knownTokenAt, split_empty, hends _ reads_knownToken.1,
      head?_filter hd (decide_eq_true hn)]
    exact Option.some_ne_none _

end Vendor

/-! ### Private keys -/

section Key

variable {text : Bytes} {p : Nat} {T u v : List (Traced UInt8)} {F : CredentialForm}

theorem reads_pemLine : reads (ch '[') privateKeyBegin = false ∧
    reads (ch '[') privateKeyEnd = false := by
  decide

theorem head?_privateKeyBegin {s : Bytes} {n : Nat} (h : n ∈ ends privateKeyBegin s) :
    s.head? = some (ch '-') := by
  obtain ⟨t, rfl⟩ := (mem_ends_pemLine h).1
  rfl

theorem head?_privateKeyEnd {s : Bytes} {n : Nat} (h : n ∈ ends privateKeyEnd s) :
    s.head? = some (ch '-') := by
  obtain ⟨t, rfl⟩ := (mem_ends_pemLine h).1
  rfl

/-- A line around a key begins in the original. -/
theorem RedactedTo.some_of_dash (hT : RedactedTo text p T) {L : List (Traced UInt8)}
    (h : T = u ++ L) (hdash : (L.map Prod.fst).head? = some (ch '-')) :
    ∃ e w, L = (ch '-', some e) :: w := by
  rcases L with - | ⟨⟨b, o⟩, w⟩
  · simp at hdash
  · obtain rfl : b = ch '-' := by simpa using hdash
    rcases o with - | e
    · exact absurd rfl (hT.inked _ (by rw [h]; simp))
    · exact ⟨e, w, rfl⟩

/-- What a pattern reads in the edited text, it reads in the original, where it is
all still there. -/
theorem RedactedTo.ends_original (hT : RedactedTo text p T) {r : Pattern UInt8}
    (hr : reads (ch '[') r = false) {b : UInt8} {x n : Nat} (h : T = u ++ (b, some x) :: v)
    (hn : n ∈ ends r (((b, some x) :: v).map Prod.fst)) :
    n ∈ ends r (text.drop x) ∧
      ((b, some x) :: v).take n = positions x ((text.drop x).take n) ∧ x + n ≤ text.length := by
  obtain ⟨m, -, hle, -, htake, hends, -⟩ := hT.run h
  rw [hends r hr, List.mem_filter, decide_eq_true_eq] at hn
  exact ⟨hn.1, htake n hn.2, by omega⟩

/-- What a pattern reads in the original, it reads in the edited text, when all of
it is still there. -/
theorem RedactedTo.ends_edited (hT : RedactedTo text p T) {r : Pattern UInt8}
    (hr : reads (ch '[') r = false) {b : UInt8} {x n : Nat} (h : T = u ++ (b, some x) :: v)
    (hn : n ∈ ends r (text.drop x)) (hall : ∀ i, x ≤ i → i < x + n → i ∈ origins T) :
    n ∈ ends r (((b, some x) :: v).map Prod.fst) := by
  obtain ⟨m, -, -, hnot, -, hends, -⟩ := hT.run h
  rw [hends r hr, List.mem_filter]
  exact ⟨hn, decide_eq_true (le_of_origins hnot hall)⟩

/-- A position behind a run stands behind it in the edited text. -/
theorem le_length_of_run {L A B : List (Traced UInt8)} {x n e : Nat} {c : UInt8}
    (htake : L.take n = positions x ((text.drop x).take n)) (hL : L = A ++ (c, some e) :: B)
    (he : x + n ≤ e) : n ≤ A.length := by
  by_contra hlt
  have htakeA : L.take (A.length + 1) =
      positions x (((text.drop x).take n).take (A.length + 1)) := by
    rw [← take_positions, ← htake, List.take_take, min_eq_left (by omega)]
  rw [hL, List.take_append, List.take_of_length_le (by omega),
    Nat.add_sub_cancel_left, List.take_succ_cons, List.take_zero] at htakeA
  have hlast : e ∈ origins (A ++ [(c, some e)]) := by simp
  rw [htakeA, mem_origins_positions] at hlast
  have hlen := List.length_take_le (A.length + 1) ((text.drop x).take n)
  omega

/-- No END line that is still there is passed over. -/
theorem RedactedTo.first_end (hT : RedactedTo text p T) {b : UInt8} {x n t e t' l' : Nat}
    {w : List (Traced UInt8)} (h : T = u ++ (b, some x) :: v)
    (hn : n ∈ ends privateKeyBegin (((b, some x) :: v).map Prod.fst))
    (hw : ((b, some x) :: v).drop (n + t) = (ch '-', some e) :: w)
    (hfirst : ∀ t' < t, ends privateKeyEnd ((((b, some x) :: v).map Prod.fst).drop (n + t')) = [])
    (hend : l' ∈ ends privateKeyEnd (text.drop (x + n + t')))
    (hall : ∀ i, x + n + t' ≤ i → i < x + n + t' + l' → i ∈ origins T) : e ≤ x + n + t' := by
  by_contra hlt
  obtain ⟨-, htake, -⟩ := hT.ends_original reads_pemLine.1 h hn
  have hsplit : T = (u ++ ((b, some x) :: v).take (n + t)) ++ (ch '-', some e) :: w := by
    rw [← hw, List.append_assoc, List.take_append_drop, h]
  have hpos := privateKeyEnd_pos hend
  have hmem := hall (x + n + t') le_rfl (by omega)
  have hin : x + n + t' ∈ origins (((b, some x) :: v).take (n + t)) := by
    rw [hsplit, origins_append, origins_cons_some, List.mem_append, List.mem_cons] at hmem
    rcases hmem with hmem | heq | hmem
    · rw [origins_append, List.mem_append] at hmem
      refine hmem.resolve_left fun hmem => ?_
      have := (hT.derived.lt_of_split h).1 _ hmem
      omega
    · omega
    · have := (hT.derived.lt_of_split hsplit).2 _ hmem
      omega
  obtain ⟨c, hc⟩ := mem_origins.mp hin
  obtain ⟨A, B, hAB⟩ := List.append_of_mem hc
  have hL : (b, some x) :: v = A ++ (c, some (x + n + t')) :: (B ++ (ch '-', some e) :: w) := by
    rw [← hw, ← List.cons_append, ← List.append_assoc, ← hAB, List.take_append_drop]
  have hAlen : A.length < n + t := by
    have hlen := congrArg List.length hAB
    simp only [List.length_take, List.length_append, List.length_cons] at hlen
    omega
  have hnA := le_length_of_run htake hL (Nat.le_add_right _ t')
  have hT' : T = (u ++ A) ++ (c, some (x + n + t')) :: (B ++ (ch '-', some e) :: w) := by
    rw [h, hL, List.append_assoc]
  have hread := hT.ends_edited reads_pemLine.2 hT' hend hall
  have hnone := hfirst (A.length - n) (by omega)
  rw [Nat.add_sub_cancel' hnA, ← List.map_drop, hL, List.drop_left] at hnone
  rw [hnone] at hread
  exact absurd hread List.not_mem_nil

/-- The lines around a key, where a match of the edited text reads them. -/
theorem RedactedTo.key_lines (hT : RedactedTo text p T) {b : UInt8} {x m l : Nat}
    (h : T = u ++ (b, some x) :: v)
    (hm : split privateKeyBody privateKeyEnd (((b, some x) :: v).map Prod.fst) = some (m, l)) :
    ∃ F e w, IsReading text F ∧ F.kind = .privateKey ∧ F.start = x ∧ F.redacted = ⟨x, e + l⟩ ∧
      F.Intact T ∧
      (∀ G, IsReading text G → G.kind = .privateKey → G.start = x → G.Intact T →
        G = F ∨ F.Before G ∧ F.redacted.Holds x) ∧
      ((b, some x) :: v).drop m = (ch '-', some e) :: w ∧
      ∀ j, j ∈ origins ((((b, some x) :: v).drop m).take l) ↔ e ≤ j ∧ j < e + l := by
  obtain ⟨n, t, hn, rfl, hl, hfirst⟩ := privateKey_split hm
  have hsplit : T = (u ++ ((b, some x) :: v).take (n + t)) ++ ((b, some x) :: v).drop (n + t) := by
    rw [List.append_assoc, List.take_append_drop, h]
  rw [← List.map_drop] at hl
  obtain ⟨e, w, hw⟩ := hT.some_of_dash hsplit (head?_privateKeyEnd hl)
  obtain ⟨hn', htake, hlen⟩ := hT.ends_original reads_pemLine.1 h hn
  rw [hw] at hl hsplit
  obtain ⟨hl', htake', hlen'⟩ := hT.ends_original reads_pemLine.2 hsplit hl
  have hpos := privateKeyBegin_pos hn'
  -- the END line stands behind the BEGIN line in the original as well
  have hxe : x + n ≤ e := by
    have hlast := (hT.derived.lt_of_split hsplit).1 (x + n - 1) (by
      rw [origins_append, List.mem_append, List.take_add, origins_append, List.mem_append, htake,
        mem_origins_positions, List.length_take_of_le (by rw [List.length_drop]; omega)]
      exact Or.inr (Or.inl (by omega)))
    omega
  have hcut : ∀ j, j ∈ origins ((((b, some x) :: v).drop (n + t)).take l) ↔ e ≤ j ∧ j < e + l :=
    fun j => by
      rw [hw, htake', mem_origins_positions,
        List.length_take_of_le (by rw [List.length_drop]; omega)]
  obtain ⟨s, rfl⟩ : ∃ s, e = x + n + s := ⟨e - (x + n), by omega⟩
  have hhead : ∀ {head : String} {s : Bytes} {k : Nat}, k ∈ ends (pemLine head) s →
      (ends (pemLine head) s).head? = some k := fun {head s k} hk => by
    obtain ⟨k', hk'⟩ := Option.isSome_iff_exists.mp (List.isSome_head?.mpr (List.ne_nil_of_mem hk))
    rw [hk', pemLine_unique (List.mem_of_head? hk') hk]
  refine ⟨_, _, w, IsReading.of_mem (mem_readingsAt_privateKey.mpr
    ⟨n, s, l, hhead hn', hhead hl', rfl⟩), rfl, rfl, rfl, ?_, fun G hG hkind hstart hall => ?_, hw,
    hcut⟩
  · simp only [CredentialForm.Intact, List.mem_cons, List.not_mem_nil, or_false,
      forall_eq_or_imp, forall_eq]
    exact ⟨fun i hi => mem_origins_of_take h htake hlen hi.1 hi.2,
      fun i hi => mem_origins_of_take hsplit htake' hlen' hi.1 hi.2⟩
  · rw [IsReading, hkind, hstart] at hG
    obtain ⟨n', t', l', hn'', hl'', rfl⟩ := mem_readingsAt_privateKey.mp hG
    obtain rfl := pemLine_unique hn' (List.mem_of_head? hn'')
    have hend := List.mem_of_head? hl''
    have hle := hT.first_end h hn hw hfirst hend fun i hi hi' =>
      hall ⟨x + n + t', x + n + t' + l'⟩ (by simp) i ⟨hi, hi'⟩
    rcases (by omega : s ≤ t').eq_or_lt with rfl | hlt
    · obtain rfl := pemLine_unique hl' hend
      exact Or.inl rfl
    · exact Or.inr ⟨Or.inr ⟨rfl, Or.inr ⟨rfl, by simp only; omega⟩⟩, le_rfl, by simp only; omega⟩

theorem not_begin_in_mark (hT : RedactedTo text p T) {b : UInt8} (h : T = u ++ (b, none) :: v)
    {n : Nat} : n ∉ ends privateKeyBegin (((b, none) :: v).map Prod.fst) := by
  intro hn
  obtain ⟨e, w, hw⟩ := hT.some_of_dash h (head?_privateKeyBegin hn)
  simp at hw

/-- The fourth pass finds the keys whose lines the passes before have left, from
line to line. -/
theorem passOn_privateKey (hT : RedactedTo text 3 T) : PassOn text .privateKey T where
  fire u v b x k d h hm := by
    rw [passMatcher, privateKeyAt_eq] at hm
    obtain ⟨⟨m, l⟩, hml, heq⟩ := Option.map_eq_some_iff.mp hm
    obtain ⟨rfl, rfl⟩ : 0 = k ∧ m + l = d := by simpa using heq
    obtain ⟨F, e, w, hF, hkind, hstart, hredacted, hintact, hfirst, hw, hcut⟩ := hT.key_lines h hml
    have hsplit : T = (u ++ ((b, some x) :: v).take m) ++ (ch '-', some e) :: w := by
      rw [← hw, List.append_assoc, List.take_append_drop, h]
    obtain ⟨hbefore, hbehind⟩ := hT.derived.lt_of_split hsplit
    obtain ⟨hbefore', hbehind'⟩ := hT.derived.lt_of_split h
    have hL : origins ((((b, some x) :: v).drop 0).take (m + l)) =
        origins (((b, some x) :: v).take m) ++ origins ((((b, some x) :: v).drop m).take l) := by
      rw [List.drop_zero, List.take_add, origins_append]
    rw [hL]
    refine ⟨F, hF, hkind, hstart, hintact, hfirst, fun j hmem => ?_⟩
    rw [hredacted, List.mem_append, hcut]
    constructor
    · rintro ⟨hxj, hje⟩
      simp only at hxj hje
      by_cases hlt : j < e
      · rw [hsplit, origins_append, List.mem_append, origins_append, List.mem_append,
          origins_cons_some, List.mem_cons] at hmem
        rcases hmem with (hmem | hmem) | rfl | hmem
        · have := hbefore' j hmem
          omega
        · exact Or.inl hmem
        · omega
        · have := hbehind j hmem
          omega
      · exact Or.inr ⟨by omega, hje⟩
    · rintro (hj | ⟨hej, hje⟩)
      · have hin : j ∈ origins ((b, some x) :: v) :=
          ((List.take_sublist m _).filterMap _).subset hj
        have hxj : x ≤ j := by
          rw [origins_cons_some, List.mem_cons] at hin
          exact hin.elim (fun heq => heq.ge) fun hin => (hbehind' j hin).le
        have hlt := hbefore j (by rw [origins_append]; exact List.mem_append_right _ hj)
        exact ⟨hxj, by simp only; omega⟩
      · have hxe : x ≤ e := by
          have hin : e ∈ origins ((b, some x) :: v) := by
            rw [← List.take_append_drop m ((b, some x) :: v), hw, origins_append]
            simp
          rw [origins_cons_some, List.mem_cons] at hin
          exact hin.elim (fun heq => heq.ge) fun hin => (hbehind' e hin).le
        exact ⟨hxe.trans hej, hje⟩
  dry u v b k d h hm := by
    rw [passMatcher, privateKeyAt_eq] at hm
    obtain ⟨⟨m, l⟩, hml, -⟩ := Option.map_eq_some_iff.mp hm
    obtain ⟨n, t, hn, -⟩ := privateKey_split hml
    exact absurd hn (not_begin_in_mark hT h)
  hit F u v b hF hkind hall h := by
    rw [IsReading, hkind] at hF
    obtain ⟨n, t, l, hn, hl, hform⟩ := mem_readingsAt_privateKey.mp hF
    replace hn := List.mem_of_head? hn
    replace hl := List.mem_of_head? hl
    have hanchors : F.anchors = [⟨F.start, F.start + n⟩,
        ⟨F.start + n + t, F.start + n + t + l⟩] := congrArg (·.anchors) hform
    have hpos := privateKeyEnd_pos hl
    have hbegin : ∀ i, F.start ≤ i → i < F.start + n → i ∈ origins T := fun i hi hi' =>
      hall ⟨F.start, F.start + n⟩ (by simp [hanchors]) i ⟨hi, hi'⟩
    have hend : ∀ i, F.start + n + t ≤ i → i < F.start + n + t + l → i ∈ origins T :=
      fun i hi hi' =>
        hall ⟨F.start + n + t, F.start + n + t + l⟩ (by simp [hanchors]) i ⟨hi, hi'⟩
    have hn' := hT.ends_edited reads_pemLine.1 h hn hbegin
    obtain ⟨-, htake, -⟩ := hT.ends_original reads_pemLine.1 h hn'
    -- the END line stands somewhere behind in the edited text
    obtain ⟨c, A, B, hL⟩ : ∃ c A B,
        (b, some F.start) :: v = A ++ (c, some (F.start + n + t)) :: B := by
      have hmem := hend _ le_rfl (by omega)
      rw [h, origins_append, List.mem_append] at hmem
      rcases hmem with hmem | hmem
      · have := (hT.derived.lt_of_split h).1 _ hmem
        omega
      · obtain ⟨c, hc⟩ := mem_origins.mp hmem
        obtain ⟨A, B, hAB⟩ := List.append_of_mem hc
        exact ⟨c, A, B, hAB⟩
    have hnA := le_length_of_run htake hL (Nat.le_add_right _ t)
    have hT' : T = (u ++ A) ++ (c, some (F.start + n + t)) :: B := by
      rw [h, hL, List.append_assoc]
    have hl' := hT.ends_edited reads_pemLine.2 hT' hl hend
    have hkey : split privateKeyBody privateKeyEnd (((b, some F.start) :: v).map Prod.fst) ≠
        none := by
      refine privateKey_ne_none (t := A.length - n) (l := l) hn' ?_
      rwa [Nat.add_sub_cancel' hnA, ← List.map_drop, hL, List.drop_left]
    rw [passMatcher, privateKeyAt_eq]
    exact fun hnone => hkey (Option.map_eq_none_iff.mp hnone)

/-- The last pass finds the first BEGIN line that is left, and goes up to the end of
the text. -/
theorem passOn_truncatedKey (hT : RedactedTo text 4 T) : PassOn text .truncatedKey T where
  fire u v b x k d h hm := by
    simp only [passMatcher, unterminatedAt, Option.ite_none_right_eq_some] at hm
    obtain ⟨hbegin, heq⟩ := hm
    obtain ⟨rfl, rfl⟩ : 0 = k ∧ (((b, some x) :: v).map Prod.fst).length = d := by
      simpa using heq
    obtain ⟨n, hn⟩ := privateKeyBeginAt_iff.mp hbegin
    obtain ⟨hn', htake, hle⟩ := hT.ends_original reads_pemLine.1 h hn
    obtain ⟨hbefore, hbehind⟩ := hT.derived.lt_of_split h
    obtain ⟨n', hn''⟩ : ∃ n', (ends privateKeyBegin (text.drop x)).head? = some n' :=
      Option.isSome_iff_exists.mp (List.isSome_head?.mpr (List.ne_nil_of_mem hn'))
    obtain rfl := pemLine_unique hn' (List.mem_of_head? hn'')
    have hread : IsReading text ⟨.truncatedKey, x, ⟨x + n, text.length⟩, ⟨x, text.length⟩,
        [⟨x, x + n⟩]⟩ := IsReading.of_mem (mem_readingsAt_truncatedKey.mpr ⟨n, hn'', rfl⟩)
    have hwhole : (((b, some x) :: v).drop 0).take (((b, some x) :: v).map Prod.fst).length =
        (b, some x) :: v := by simp
    rw [hwhole]
    refine ⟨_, hread, rfl, rfl, ?_,
      hread.first (show CredentialKind.truncatedKey ≠ .privateKey by decide),
      fun j hmem => ⟨fun hj => ?_, fun hj => ?_⟩⟩
    · simp only [CredentialForm.Intact, List.mem_singleton, forall_eq]
      exact fun i hi => mem_origins_of_take h htake hle hi.1 hi.2
    · rw [h, origins_append, List.mem_append] at hmem
      refine hmem.resolve_left fun hmem => ?_
      exact absurd hj.1 (by simpa using hbefore j hmem)
    · obtain ⟨c, hc⟩ := mem_origins.mp hj
      have hlt := (List.getElem?_eq_some_iff.mp
        (hT.derived.symbol c j (by rw [h]; exact List.mem_append_right _ hc))).1
      rw [origins_cons_some, List.mem_cons] at hj
      exact ⟨hj.elim (fun heq => heq.ge) fun hj => (hbehind j hj).le, hlt⟩
  dry u v b k d h hm := by
    simp only [passMatcher, unterminatedAt, Option.ite_none_right_eq_some] at hm
    obtain ⟨n, hn⟩ := privateKeyBeginAt_iff.mp hm.1
    exact absurd hn (not_begin_in_mark hT h)
  hit F u v b hF hkind hall h := by
    rw [IsReading, hkind] at hF
    obtain ⟨n, hn, hform⟩ := mem_readingsAt_truncatedKey.mp hF
    have hanchors : F.anchors = [⟨F.start, F.start + n⟩] := congrArg (·.anchors) hform
    have hn' := hT.ends_edited reads_pemLine.1 h (List.mem_of_head? hn) fun i hi hi' =>
      hall ⟨F.start, F.start + n⟩ (by rw [hanchors]; exact List.mem_cons_self) i ⟨hi, hi'⟩
    simp only [passMatcher, unterminatedAt, privateKeyBeginAt_iff.mpr ⟨n, hn'⟩, if_true]
    exact Option.some_ne_none _

end Key

end UAgent
