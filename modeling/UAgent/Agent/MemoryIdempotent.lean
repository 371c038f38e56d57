/-
UAgent/Agent/MemoryIdempotent.lean

Redacting twice is redacting once, and the gate loses nothing.

A pass finds nothing of its own kind in what it wrote: the marks hold brackets,
which no token and no line around a key does, so what can be read behind a
pass could be read in front of it (`Free.textPass`).  The assignments are the
exception, for a mark is a value like any other; but behind their pass every
value is a mark, a later pass neither cuts into one nor takes away the
character it ends at, and replacing a mark by itself changes nothing
(`ValuesMarked.textPass`).
-/
import UAgent.Agent.MemorySound

namespace UAgent

open Bytes Pattern Piece

/-- A pass over a text. -/
def textPass (kind : CredentialKind) (s : Bytes) : Bytes :=
  regexReplace id id (passMatcher kind) (passMark kind) s

/-- The pieces of a pass over a text. -/
def textPieces (kind : CredentialKind) (s : Bytes) : List (Piece UInt8) :=
  sweep (fun t => passMatcher kind (t.map id)) s

section TextPass

variable {kind : CredentialKind} {s : Bytes}

theorem textPass_eq : textPass kind s = renders (passMark kind) (textPieces kind s) := by
  rw [textPass, regexReplace, List.map_id]
  rfl

theorem sources_textPieces (kind : CredentialKind) (s : Bytes) :
    sources (textPieces kind s) = s := sources_sweep (fits_passMatcher id kind) s

theorem swept_textPieces (kind : CredentialKind) (s : Bytes) :
    Swept (passMatcher kind) (textPieces kind s) := by
  have hswept := swept_sweep (fits_passMatcher id kind) s
  rw [textPieces]
  simp only [List.map_id] at hswept ⊢
  exact hswept

theorem redactPasses_eq (s : Bytes) : redactPasses id id s =
    textPass .truncatedKey (textPass .privateKey (textPass .vendorToken
      (textPass .bearer (textPass .assignment s)))) := by
  rw [redactPasses]
  simp only [cutUnterminated_eq]
  rfl

/-- A pass that only writes its mark over itself changes nothing. -/
theorem textPass_eq_self (h : ∀ u v k d, s = u ++ v → passMatcher kind v = some (k, d) →
    (v.drop k).take d = passMark kind) : textPass kind s = s := by
  have hcuts : ∀ ps : List (Piece UInt8), (∀ d, Piece.cut d ∈ ps → d = passMark kind) →
      renders (passMark kind) ps = sources ps := by
    intro ps hps
    induction ps with
    | nil => rfl
    | cons p ps ih =>
      rw [renders_cons, sources_cons, ih fun d hd => hps d (List.mem_cons_of_mem _ hd)]
      rcases p with c | d
      · rfl
      · rw [render_cut, source_cut, hps d List.mem_cons_self]
  rw [textPass_eq, hcuts, sources_textPieces]
  intro d hd
  obtain ⟨pu, pv, hps⟩ := List.append_of_mem hd
  obtain ⟨pu', z, rfl, -, hm⟩ := (swept_textPieces kind s).cut_fired hps
  have hs : s = sources pu' ++ (z ++ (d ++ sources pv)) := by
    rw [← sources_textPieces kind s, hps]
    simp
  simpa using h _ _ _ _ hs hm

end TextPass

/-! ### Patterns that read no bracket -/

/-- The pattern can be read nowhere in the text. -/
def Free (r : Pattern UInt8) (s : Bytes) : Prop := ∀ u v, s = u ++ v → ends r v = []

/-- The pattern reads something, no bracket, and nothing that marks hold. -/
structure OutsideMarks (r : Pattern UInt8) : Prop where
  least : 0 < least r
  opens : reads (ch '[') r = false
  closes : reads (ch ']') r = false
  marks : ∀ v ∈ (lit "REDACTED").tails ++ (lit "REDACTED PRIVATE KEY").tails, ends r v = []

section Free

variable {r : Pattern UInt8} {kind : CredentialKind} {s u v : Bytes} {n : Nat}

theorem passMark_cases (kind : CredentialKind) : ∃ mid,
    (mid = lit "REDACTED" ∨ mid = lit "REDACTED PRIVATE KEY") ∧
      passMark kind = ch '[' :: (mid ++ [ch ']']) := by
  rcases kind with - | - | - | - | -
  all_goals first
    | exact ⟨_, Or.inl rfl, by decide⟩
    | exact ⟨_, Or.inr rfl, by decide⟩

/-- What can be read behind a pass was kept by it. -/
theorem OutsideMarks.kept (hr : OutsideMarks r) (h : textPass kind s = u ++ v)
    (hn : n ∈ ends r v) : ∃ pu pv, textPieces kind s = pu ++ (v.take n).map Piece.keep ++ pv ∧
      renders (passMark kind) pu = u ∧ renders (passMark kind) pv = v.drop n := by
  have hpos := hr.least.trans_le (least_le hn)
  have hlen := le_length_of_mem_ends hn
  obtain ⟨mid, hmid, hmark⟩ := passMark_cases kind
  obtain ⟨c, z, hz⟩ : ∃ c z, v.take n = c :: z := by
    rcases hv : v.take n with - | ⟨c, z⟩
    · have := congrArg List.length hv
      rw [List.length_take_of_le hlen, List.length_nil] at this
      omega
    · exact ⟨c, z, rfl⟩
  have hbracket : ∀ x ∈ c :: z, ¬ch '[' = x ∧ ¬ch ']' = x := by
    intro x hx
    have hreads := reads_of_mem_take hn x (hz ▸ hx)
    refine ⟨?_, ?_⟩ <;> rintro rfl
    · exact Bool.false_ne_true (hr.opens.symm.trans hreads)
    · exact Bool.false_ne_true (hr.closes.symm.trans hreads)
  have hsplit : renders (passMark kind) (textPieces kind s) = u ++ (c :: z ++ v.drop n) := by
    rw [← textPass_eq, h, ← hz, List.take_append_drop]
  rcases renders_eq_append₃ hmark rfl rfl hbracket hsplit with hkept | ⟨x, y, hxy⟩
  · rwa [hz]
  · -- no mark holds it
    have hsuffix : c :: z ++ y ∈ (lit "REDACTED").tails ++ (lit "REDACTED PRIVATE KEY").tails := by
      have htail : c :: z ++ y ∈ mid.tails :=
        (List.mem_tails _ _).mpr ⟨x, by rw [← hxy, List.append_assoc]⟩
      rcases hmid with rfl | rfl
      · exact List.mem_append_left _ htail
      · exact List.mem_append_right _ htail
    have hread : n ∈ ends r (c :: z ++ y) := by
      have htake : n ∈ ends r (v.take n) := mem_ends_take.mpr ⟨hn, le_rfl⟩
      have hcz : (c :: z ++ y).take n = v.take n := by
        rw [← hz]
        exact List.take_left' (List.length_take_of_le hlen)
      rw [← hcz] at htake
      exact (mem_ends_take.mp htake).1
    rw [hr.marks _ hsuffix] at hread
    exact absurd hread List.not_mem_nil

/-- What was kept could be read before. -/
theorem mem_ends_kept {pu pv : List (Piece UInt8)} (hn : n ∈ ends r v)
    (hps : textPieces kind s = pu ++ (v.take n).map Piece.keep ++ pv) :
    s = sources pu ++ (v.take n ++ sources pv) ∧ n ∈ ends r (v.take n ++ sources pv) := by
  refine ⟨?_, ?_⟩
  · rw [← sources_textPieces kind s, hps, sources_append, sources_append, sources_map_keep,
      List.append_assoc]
  · have htake : n ∈ ends r (v.take n) := mem_ends_take.mpr ⟨hn, le_rfl⟩
    have hcz : (v.take n ++ sources pv).take n = v.take n :=
      List.take_left' (List.length_take_of_le (le_length_of_mem_ends hn))
    rw [← hcz] at htake
    exact (mem_ends_take.mp htake).1

/-- A pass brings nothing about that was not there. -/
theorem Free.textPass (hr : OutsideMarks r) (h : Free r s) : Free r (textPass kind s) := by
  intro u v huv
  by_contra hne
  obtain ⟨n, hn⟩ := List.exists_mem_of_ne_nil _ hne
  obtain ⟨pu, pv, hps, -, -⟩ := hr.kept huv hn
  obtain ⟨hs, hread⟩ := mem_ends_kept hn hps
  rw [h _ _ hs] at hread
  exact absurd hread List.not_mem_nil

/-- A pass that keeps nothing of its matches leaves none. -/
theorem free_textPass (hr : OutsideMarks r)
    (hzero : ∀ w k d, passMatcher kind w = some (k, d) → k = 0)
    (hmatch : ∀ w n, n ∈ ends r w → passMatcher kind w ≠ none) :
    Free r (UAgent.textPass kind s) := by
  intro u v huv
  by_contra hne
  obtain ⟨n, hn⟩ := List.exists_mem_of_ne_nil _ hne
  obtain ⟨pu, pv, hps, -, -⟩ := hr.kept huv hn
  obtain ⟨-, hread⟩ := mem_ends_kept hn hps
  have hm := hmatch _ _ hread
  have hpos := hr.least.trans_le (least_le hn)
  rcases hz : v.take n with - | ⟨c, z⟩
  · have hlen := congrArg List.length hz
    rw [List.length_take_of_le (le_length_of_mem_ends hn), List.length_nil] at hlen
    omega
  · rw [hz] at hps hm
    have hps' : textPieces kind s = pu ++ Piece.keep c :: (z.map Piece.keep ++ pv) := by
      rw [hps]
      simp
    obtain ⟨_, z₁, z₂, _, _, -, -, -, hfire⟩ :=
      (swept_textPieces kind s).keep_match hps' (by simpa using hm)
    have := hzero _ _ _ hfire
    omega

end Free

/-! ### Tokens and keys -/

section Tokens

variable {kind : CredentialKind} {s : Bytes}

theorem outsideMarks_assignment : OutsideMarks assignmentAnchor :=
  ⟨by decide, by decide, by decide, by decide⟩

theorem outsideMarks_bearer : OutsideMarks (seq bearerAnchor bearerToken) :=
  ⟨by decide, by decide, by decide, by decide⟩

theorem outsideMarks_knownToken : OutsideMarks knownToken :=
  ⟨by decide, by decide, by decide, by decide⟩

theorem outsideMarks_begin : OutsideMarks privateKeyBegin :=
  ⟨by decide, by decide, by decide, by decide⟩

/-- Kept symbols in front of a cut are no more than what the firing kept. -/
theorem length_le_of_keep {α : Type*} {a b : List α} {d : List α} {ps qs : List (Piece α)}
    (h : a.map Piece.keep ++ ps = b.map Piece.keep ++ Piece.cut d :: qs) : a.length ≤ b.length := by
  induction a generalizing b with
  | nil => exact Nat.zero_le _
  | cons x a ih =>
    rcases b with - | ⟨y, b⟩
    · simp at h
    · rw [List.map_cons, List.map_cons, List.cons_append, List.cons_append, List.cons.injEq] at h
      exact Nat.succ_le_succ (ih h.2)

/-- A kept run in which a match begins is no longer than what the match keeps. -/
theorem length_le_of_match {pu pv : List (Piece UInt8)} {c : UInt8} {z : Bytes} {k d : Nat}
    (hps : textPieces kind s = pu ++ (c :: z).map Piece.keep ++ pv)
    (hm : passMatcher kind (c :: z ++ sources pv) = some (k, d)) : (c :: z).length ≤ k := by
  have hps' : textPieces kind s = pu ++ Piece.keep c :: (z.map Piece.keep ++ pv) := by
    rw [hps]
    simp
  have hsrc : sources (z.map Piece.keep ++ pv) = z ++ sources pv := by simp
  obtain ⟨pu', z₁, z₂, d', pv', rfl, hpv, hne, hfire⟩ :=
    (swept_textPieces kind s).keep_match hps' (by rw [hsrc, ← List.cons_append, hm]; simp)
  have hlen : z.length ≤ z₂.length := length_le_of_keep hpv
  have htext : z₂ ++ (d' ++ sources pv') = z ++ sources pv := by
    rw [← hsrc, hpv, sources_append, sources_map_keep, sources_cons, source_cut]
  have hkeep : k = z₂.length + 1 := by
    rw [List.cons_append, htext] at hfire
    rcases z₁ with - | ⟨x, z₁⟩
    · rw [List.nil_append, ← List.cons_append, hm] at hfire
      simpa using congrArg Prod.fst (Option.some.inj hfire)
    · have hm' : passMatcher kind ((x :: z₁ ++ (c :: (z ++ sources pv))).drop (x :: z₁).length) =
          some (k, d) := by
        rw [List.drop_left, ← List.cons_append, hm]
      have hpos : 0 < (x :: z₁).length := by simp
      have hnest := passMatcher_nest hfire hpos (by omega) hm'
      omega
  rw [List.length_cons]
  omega

/-- Behind their pass there are no bearer tokens. -/
theorem free_bearer (s : Bytes) :
    Free (seq bearerAnchor bearerToken) (UAgent.textPass .bearer s) := by
  intro u v huv
  by_contra hne
  obtain ⟨n, hn⟩ := List.exists_mem_of_ne_nil _ hne
  obtain ⟨pu, pv, hps, -, -⟩ := outsideMarks_bearer.kept huv hn
  obtain ⟨-, hread⟩ := mem_ends_kept hn hps
  obtain ⟨k, hk, d, hd, hkd⟩ := mem_ends_seq.mp hread
  obtain ⟨hlo, hhi⟩ := mem_ends_many.mp hd
  have hm := bearerAt_of hk (hlo.trans hhi)
  rcases hz : v.take n with - | ⟨c, z⟩
  · have hlen := congrArg List.length hz
    rw [List.length_take_of_le (le_length_of_mem_ends hn), List.length_nil] at hlen
    omega
  · have hzlen := congrArg List.length hz
    rw [List.length_take_of_le (le_length_of_mem_ends hn)] at hzlen
    rw [hz] at hps hm
    have hle := length_le_of_match hps hm
    omega

/-- Behind their pass there are no vendor tokens. -/
theorem free_knownToken (s : Bytes) : Free knownToken (UAgent.textPass .vendorToken s) := by
  refine free_textPass outsideMarks_knownToken (fun w k d h => (knownTokenAt_some h).1)
    fun w n hn hnone => ?_
  rw [passMatcher, knownTokenAt, split_empty, Option.map_eq_none_iff,
    List.head?_eq_none_iff] at hnone
  rw [hnone] at hn
  exact absurd hn List.not_mem_nil

/-- Behind the last pass there is no BEGIN line. -/
theorem free_begin (s : Bytes) : Free privateKeyBegin (UAgent.textPass .truncatedKey s) := by
  refine free_textPass outsideMarks_begin (fun w k d h => ?_) fun w n hn hnone => ?_
  · simp only [passMatcher, unterminatedAt, Option.ite_none_right_eq_some, Option.some.injEq,
      Prod.mk.injEq] at h
    exact h.2.1.symm
  · simp only [passMatcher, unterminatedAt, privateKeyBeginAt_iff.mpr ⟨n, hn⟩, if_true] at hnone
    simp at hnone

end Tokens

/-! ### Assignments -/

/-- Every value of the text is a mark. -/
def ValuesMarked (s : Bytes) : Prop :=
  ∀ u v k d, s = u ++ v → assignmentAt v = some (k, d) → (v.drop k).take d = redactedMark

/-- A match never begins to drop where a value ends, at a mark, or in the middle of
one. -/
structure Sparing (m : Matcher) : Prop where
  value : ∀ w k d, m w = some (k, d) → ∃ c ∈ w[k]?, valueChar c = true ∧ c ≠ ch '['
  inside : ∀ w k d j, m w = some (k, d) → 0 < j → j < redactedMark.length →
    redactedMark.drop j <+: w.drop k → 0 < k ∧ w[k - 1]? ≠ redactedMark[j - 1]?

section Assignments

variable {kind : CredentialKind} {s : Bytes}

theorem redactedMark_value (c : UInt8) (hc : c ∈ redactedMark) :
    valueChar c = true ∧ blankChar c = false := by
  have hall : (redactedMark.all fun c => valueChar c && !blankChar c) = true := by decide
  simpa using List.all_eq_true.mp hall c hc

/-- A mark that ends where a value ends is the whole value. -/
theorem take_mark {w t : Bytes} (hw : w = redactedMark ++ t)
    (ht : ∀ c ∈ t.head?, valueChar c = false) : w.take (spanLen valueChar w) = redactedMark := by
  have hspan : spanLen valueChar w = redactedMark.length := by
    subst hw
    refine spanLen_eq (le_spanLen (by simp) fun c hc => ?_) fun c hc => ht c ?_
    · rw [List.take_left] at hc
      exact (redactedMark_value c hc).1
    · rw [List.getElem?_append_right le_rfl, Nat.sub_self] at hc
      rwa [List.head?_eq_getElem?]
  rw [hspan, hw, List.take_left]

/-- What a pass cuts behind what it kept. -/
theorem cut_spec {pu pv : List (Piece UInt8)} {d : Bytes}
    (hps : textPieces kind s = pu ++ Piece.cut d :: pv) :
    ∃ pu' z, pu = pu' ++ z.map Piece.keep ∧
      passMatcher kind (z ++ (d ++ sources pv)) = some (z.length, d.length) ∧ d ≠ [] := by
  obtain ⟨pu', z, hpu, hne, hm⟩ := (swept_textPieces kind s).cut_fired hps
  exact ⟨pu', z, hpu, hm, hne⟩

theorem assignmentAt_pos {v : Bytes} {k d : Nat} (h : assignmentAt v = some (k, d)) : 0 < k := by
  obtain ⟨hk, hv, -, -⟩ := assignmentAt_some h
  have := (anchor_spec hk hv).2.2.1
  omega

/-- **Behind its pass every value is a mark.** -/
theorem settled_assignment (s : Bytes) : ValuesMarked (textPass .assignment s) := by
  intro u v k d huv hm
  obtain ⟨hk, ⟨c, hc, hvc⟩, hd, -⟩ := assignmentAt_some hm
  obtain ⟨pu, pv, hps, -, hpv⟩ := outsideMarks_assignment.kept huv hk
  obtain ⟨-, hread⟩ := mem_ends_kept hk hps
  have hlen := List.length_take_of_le (le_length_of_mem_ends hk)
  have hhead : (renders (passMark .assignment) pv).head? = some c := by
    rw [hpv, List.head?_drop, hc]
  rw [hd]
  rcases pv with - | ⟨x | dropped, pv⟩
  · simp at hhead
  · -- a value that was kept would have been matched
    obtain rfl : x = c := by simpa using hhead
    have hval : ValueAt (v.take k ++ (x :: sources pv)) k := by
      refine ⟨x, ?_, hvc⟩
      rw [List.getElem?_append_right hlen.le, hlen, Nat.sub_self]
      rfl
    have hfire := assignmentAt_of hread hval
    have hpos := assignmentAt_pos hm
    rcases hz : v.take k with - | ⟨a, z⟩
    · rw [hz, List.length_nil] at hlen
      omega
    · rw [hz] at hps hfire hlen
      have hps' : textPieces .assignment s = pu ++ (a :: (z ++ [x])).map Piece.keep ++ pv := by
        rw [hps]
        simp
      have hle := length_le_of_match (k := k) hps' (by simpa [passMatcher] using hfire)
      simp only [List.length_cons, List.length_append, List.length_nil] at hle hlen
      omega
  · -- a value that was cut was cut to its end
    have hps' : textPieces .assignment s =
        (pu ++ (v.take k).map Piece.keep) ++ Piece.cut dropped :: pv := hps
    obtain ⟨_, z, -, hfire, -⟩ := cut_spec hps'
    obtain ⟨-, -, hspan, -⟩ := assignmentAt_some hfire
    rw [List.drop_left] at hspan
    have hstop : ∀ c ∈ (sources pv).head?, valueChar c = false := by
      intro c' hc'
      refine getElem?_spanLen (p := valueChar) (s := dropped ++ sources pv) c' ?_
      rw [← hspan, List.getElem?_append_right le_rfl, Nat.sub_self, ← List.head?_eq_getElem?]
      exact hc'
    refine take_mark hpv.symm ?_
    rcases pv with - | ⟨y | dropped', pv⟩
    · simp
    · simpa using hstop
    · -- no value begins right behind another
      have hps'' : textPieces .assignment s =
          (pu ++ (v.take k).map Piece.keep ++ [Piece.cut dropped]) ++ Piece.cut dropped' :: pv := by
        rw [hps]
        simp
      obtain ⟨pu', z', hz', hfire', -⟩ := cut_spec hps''
      obtain rfl : z' = [] := by
        rcases List.eq_nil_or_concat z' with rfl | ⟨z', b, rfl⟩
        · rfl
        · rw [List.map_concat, List.concat_eq_append, ← List.append_assoc] at hz'
          simpa using List.append_inj_right' hz' rfl
      exact absurd (assignmentAt_pos hfire') (by simp)

/-- The first piece behind a kept part, when a value follows in what is written. -/
theorem Sparing.head_value (hs : Sparing (passMatcher kind)) {pu pv : List (Piece UInt8)}
    (hps : textPieces kind s = pu ++ pv) {c : UInt8}
    (hc : (renders (passMark kind) pv).head? = some c) (hvc : valueChar c = true) :
    ∃ x ∈ (sources pv).head?, valueChar x = true ∧
      ((∃ q, pv = Piece.keep x :: q) ∨ x ≠ ch '[') := by
  rcases pv with - | ⟨x | dropped, pv⟩
  · simp at hc
  · obtain rfl : x = c := by simpa using hc
    exact ⟨x, rfl, hvc, Or.inl ⟨pv, rfl⟩⟩
  · obtain ⟨_, z, -, hm, hne⟩ := cut_spec hps
    obtain ⟨x, hx, hvx, hbracket⟩ := hs.value _ _ _ hm
    rw [List.getElem?_append_right le_rfl, Nat.sub_self, ← List.head?_eq_getElem?] at hx
    exact ⟨x, hx, hvx, Or.inr hbracket⟩

/-- A pass keeps a mark that stands where a value does. -/
theorem Sparing.mark_kept (hs : Sparing (passMatcher kind)) {pu pv : List (Piece UInt8)} {t : Bytes}
    (hps : textPieces kind s = pu ++ pv) (ht : sources pv = redactedMark ++ t) {j : Nat}
    (hj : j ≤ redactedMark.length) :
    ∃ q, pv = (redactedMark.take j).map Piece.keep ++ q ∧ sources q = redactedMark.drop j ++ t := by
  induction j with
  | zero => exact ⟨pv, rfl, ht⟩
  | succ j ih =>
    obtain ⟨q, rfl, hq⟩ := ih (by omega)
    rw [List.drop_eq_getElem_cons (by omega : j < redactedMark.length)] at hq
    rcases q with - | ⟨x | dropped, q⟩
    · exact absurd hq (List.cons_ne_nil _ _).symm
    · obtain ⟨rfl, hrest⟩ := List.cons.inj hq
      refine ⟨q, ?_, hrest⟩
      rw [List.take_succ_eq_append_getElem (by omega), List.map_append, List.append_assoc]
      rfl
    · -- a cut within the mark
      exfalso
      have hps' : textPieces kind s =
          (pu ++ (redactedMark.take j).map Piece.keep) ++ Piece.cut dropped :: q := by
        rw [hps]
        simp
      obtain ⟨pu', z, hz, hm, hne⟩ := cut_spec hps'
      rw [sources_cons, source_cut] at hq
      rcases j with - | j
      · obtain ⟨x, hx, -, hbracket⟩ := hs.value _ _ _ hm
        rw [List.getElem?_append_right le_rfl, Nat.sub_self, hq] at hx
        exact hbracket (Option.some.inj hx).symm
      · have hpre : redactedMark.drop (j + 1) <+: (z ++ (dropped ++ sources q)).drop z.length := by
          rw [List.drop_left, hq, List.drop_eq_getElem_cons (by omega : j + 1 < redactedMark.length)]
          exact ⟨t, rfl⟩
        obtain ⟨hpos, hlast⟩ := hs.inside _ _ _ (j + 1) hm (by omega) (by omega) hpre
        refine hlast ?_
        rcases List.eq_nil_or_concat z with rfl | ⟨z, b, rfl⟩
        · simp at hpos
        · rw [List.take_succ_eq_append_getElem (by omega), List.map_append, ← List.append_assoc,
            List.map_concat, List.concat_eq_append, ← List.append_assoc] at hz
          have hb : redactedMark[j] = b := by simpa using List.append_inj_right' hz rfl
          have hj' : redactedMark[j]? = some b := by
            rw [List.getElem?_eq_getElem (by omega), hb]
          simp [hj']

/-- **A later pass leaves every value a mark.** -/
theorem ValuesMarked.textPass (hs : Sparing (passMatcher kind)) (h : ValuesMarked s) :
    ValuesMarked (UAgent.textPass kind s) := by
  intro u v k d huv hm
  obtain ⟨hk, ⟨c, hc, hvc⟩, hd, -⟩ := assignmentAt_some hm
  obtain ⟨pu, pv, hps, -, hpv⟩ := outsideMarks_assignment.kept huv hk
  obtain ⟨hsrc, hread⟩ := mem_ends_kept hk hps
  have hlen := List.length_take_of_le (le_length_of_mem_ends hk)
  have hhead : (renders (passMark kind) pv).head? = some c := by rw [hpv, List.head?_drop, hc]
  obtain ⟨x, hx, hvx, -⟩ := hs.head_value hps hhead hvc
  -- in front of the pass a value stood here as well, and it was a mark
  have hval : ValueAt (v.take k ++ sources pv) k := by
    refine ⟨x, ?_, hvx⟩
    rwa [List.getElem?_append_right hlen.le, hlen, Nat.sub_self, ← List.head?_eq_getElem?]
  have hmark := h _ _ _ _ hsrc (assignmentAt_of hread hval)
  have hdrop : (v.take k ++ sources pv).drop k = sources pv := List.drop_left' hlen
  rw [hdrop] at hmark
  have hsplit : sources pv =
      redactedMark ++ (sources pv).drop (spanLen valueChar (sources pv)) := by
    conv_lhs => rw [← List.take_append_drop (spanLen valueChar (sources pv)) (sources pv), hmark]
  obtain ⟨q, rfl, hq⟩ := hs.mark_kept hps hsplit le_rfl
  rw [List.take_length, List.drop_length, List.nil_append] at hq
  rw [hd]
  refine take_mark (t := renders (passMark kind) q) ?_ fun y hy => ?_
  · rw [← hpv, renders_append, renders_map_keep, List.take_length]
  · -- the character the value ended at is still there
    by_contra hvy
    have hps' : textPieces kind s = (pu ++ (v.take k).map Piece.keep ++
        (redactedMark.take redactedMark.length).map Piece.keep) ++ q := by rw [hps]; simp
    obtain ⟨y', hy', hvy', -⟩ := hs.head_value hps' hy (by simpa using hvy)
    rw [hq, List.head?_drop] at hy'
    rw [getElem?_spanLen y' hy'] at hvy'
    exact Bool.false_ne_true hvy'

end Assignments

/-! ### The later passes spare the marks -/

section Spare

theorem sparing_bearer : Sparing (passMatcher .bearer) where
  value w k d h := by
    obtain ⟨-, hd, hlong⟩ := bearerAt_some h
    obtain ⟨c, hc, hb⟩ := getElem?_of_lt_spanLen (by omega : 0 < spanLen bearerChar (w.drop k))
    rw [List.getElem?_drop, Nat.add_zero] at hc
    refine ⟨c, hc, valueChar_of_bearerChar c hb, ?_⟩
    rintro rfl
    exact Bool.false_ne_true (reads_bearer.2.1.symm.trans hb)
  inside w k d j h hj hlt _ := by
    obtain ⟨hk, -, -⟩ := bearerAt_some h
    obtain ⟨hlo, hhi, -⟩ := bearerAnchor_spec hk
    obtain ⟨c, hc, hblank⟩ := getElem?_of_lt_spanLen (n := k - 1 - 6)
      (by omega : k - 1 - 6 < spanLen blankChar (w.drop 6))
    rw [List.getElem?_drop, show 6 + (k - 1 - 6) = k - 1 by omega] at hc
    refine ⟨by omega, fun heq => ?_⟩
    rw [Option.mem_def.mp hc] at heq
    have hmem := List.mem_of_getElem? heq.symm
    rw [(redactedMark_value c hmem).2] at hblank
    exact Bool.false_ne_true hblank

theorem sparing_vendorToken : Sparing (passMatcher .vendorToken) where
  value w k d h := by
    obtain ⟨rfl, hd, hpos⟩ := knownTokenAt_some h
    have hmem := List.mem_of_head? hd
    have hlen := le_length_of_mem_ends hmem
    have hin : w[0] ∈ w.take d := List.mem_take_iff_getElem.mpr ⟨0, by omega, rfl⟩
    have hreads := reads_of_mem_take hmem _ hin
    refine ⟨w[0], List.getElem?_eq_getElem _, valueChar_of_bearerChar _
      (bearerChar_of_wordChar _ (wordChar_of_reads_knownToken _ hreads)), fun hbracket => ?_⟩
    rw [hbracket] at hreads
    exact Bool.false_ne_true (reads_knownToken.1.symm.trans hreads)
  inside w k d j h hj hlt hpre := by
    exfalso
    obtain ⟨rfl, hd, hpos⟩ := knownTokenAt_some h
    have hmem := List.mem_of_head? hd
    have hleast : redactedMark.length ≤ d :=
      (by decide : redactedMark.length ≤ least knownToken).trans (least_le hmem)
    -- the bracket the mark ends with is read
    obtain ⟨t, ht⟩ := hpre
    have hbracket : ch ']' ∈ w.take d := by
      rw [← List.drop_zero (l := w), ← ht, List.take_append, List.mem_append]
      refine Or.inl ?_
      rw [List.take_of_length_le (by rw [List.length_drop]; omega)]
      have hlast : redactedMark[redactedMark.length - 1]? = some (ch ']') := by decide
      have hget : (redactedMark.drop j)[redactedMark.length - 1 - j]? = some (ch ']') := by
        rw [List.getElem?_drop, Nat.add_sub_cancel' (by omega), hlast]
      exact List.mem_of_getElem? hget
    exact Bool.false_ne_true
      (reads_knownToken.2.symm.trans (reads_of_mem_take hmem _ hbracket))

/-- A match that keeps nothing and begins with a dash spares the marks. -/
theorem sparing_of_dash {m : Matcher}
    (h : ∀ w k d, m w = some (k, d) → k = 0 ∧ w.head? = some (ch '-')) : Sparing m where
  value w k d hm := by
    obtain ⟨rfl, hw⟩ := h w k d hm
    exact ⟨ch '-', by rwa [← List.head?_eq_getElem?], by decide, by decide⟩
  inside w k d j hm hj hlt hpre := by
    exfalso
    obtain ⟨rfl, hw⟩ := h w k d hm
    obtain ⟨t, ht⟩ := hpre
    rw [List.drop_zero, List.drop_eq_getElem_cons hlt] at ht
    rw [← ht] at hw
    have hmem : ch '-' ∈ redactedMark := by
      rw [← Option.some.inj hw]
      exact List.getElem_mem hlt
    exact absurd hmem (by decide)

theorem sparing_privateKey : Sparing (passMatcher .privateKey) := by
  refine sparing_of_dash fun w k d h => ?_
  rw [passMatcher, privateKeyAt_eq] at h
  obtain ⟨⟨m, l⟩, hml, heq⟩ := Option.map_eq_some_iff.mp h
  obtain ⟨n, t, hn, -⟩ := privateKey_split hml
  exact ⟨(Prod.mk.inj heq).1.symm, head?_privateKeyBegin hn⟩

theorem sparing_truncatedKey : Sparing (passMatcher .truncatedKey) := by
  refine sparing_of_dash fun w k d h => ?_
  simp only [passMatcher, unterminatedAt, Option.ite_none_right_eq_some, Option.some.injEq,
    Prod.mk.injEq] at h
  obtain ⟨n, hn⟩ := privateKeyBeginAt_iff.mp h.1
  exact ⟨h.2.1.symm, head?_privateKeyBegin hn⟩

end Spare

/-! ### Twice is once -/

section Twice

variable {s : Bytes}

theorem textPass_assignment_eq_self (h : ValuesMarked s) : textPass .assignment s = s :=
  textPass_eq_self h

theorem textPass_bearer_eq_self (h : Free (seq bearerAnchor bearerToken) s) :
    textPass .bearer s = s := by
  refine textPass_eq_self fun u v k d hs hm => ?_
  obtain ⟨hk, hd⟩ := split_some hm
  have hread : k + d ∈ ends (seq bearerAnchor bearerToken) v :=
    mem_ends_seq.mpr ⟨k, hk, d, List.mem_of_head? hd, rfl⟩
  rw [h u v hs] at hread
  exact absurd hread List.not_mem_nil

theorem textPass_vendorToken_eq_self (h : Free knownToken s) : textPass .vendorToken s = s := by
  refine textPass_eq_self fun u v k d hs hm => ?_
  have hread := List.mem_of_head? (knownTokenAt_some hm).2.1
  rw [h u v hs] at hread
  exact absurd hread List.not_mem_nil

theorem textPass_privateKey_eq_self (h : Free privateKeyBegin s) :
    textPass .privateKey s = s := by
  refine textPass_eq_self fun u v k d hs hm => ?_
  rw [passMatcher, privateKeyAt_eq] at hm
  obtain ⟨⟨m, l⟩, hml, -⟩ := Option.map_eq_some_iff.mp hm
  obtain ⟨n, t, hn, -⟩ := privateKey_split hml
  rw [h u v hs] at hn
  exact absurd hn List.not_mem_nil

theorem textPass_truncatedKey_eq_self (h : Free privateKeyBegin s) :
    textPass .truncatedKey s = s := by
  refine textPass_eq_self fun u v k d hs hm => ?_
  simp only [passMatcher, unterminatedAt, Option.ite_none_right_eq_some] at hm
  obtain ⟨n, hn⟩ := privateKeyBeginAt_iff.mp hm.1
  rw [h u v hs] at hn
  exact absurd hn List.not_mem_nil

/-- A text in which every value is a mark, and nothing else can be redacted, goes
through the passes as it is. -/
theorem redactPasses_eq_self (h : ValuesMarked s) (hb : Free (seq bearerAnchor bearerToken) s)
    (hv : Free knownToken s) (hk : Free privateKeyBegin s) : redactPasses id id s = s := by
  rw [redactPasses_eq, textPass_assignment_eq_self h, textPass_bearer_eq_self hb,
    textPass_vendorToken_eq_self hv, textPass_privateKey_eq_self hk,
    textPass_truncatedKey_eq_self hk]

/-- **Redacting what was redacted changes nothing.** -/
theorem redactPasses_redactPasses (s : Bytes) :
    redactPasses id id (redactPasses id id s) = redactPasses id id s := by
  have hset : ValuesMarked (redactPasses id id s) := by
    rw [redactPasses_eq]
    exact (((settled_assignment s).textPass sparing_bearer).textPass sparing_vendorToken).textPass
      sparing_privateKey |>.textPass sparing_truncatedKey
  have hbearer : Free (seq bearerAnchor bearerToken) (redactPasses id id s) := by
    rw [redactPasses_eq]
    exact (((free_bearer _).textPass outsideMarks_bearer).textPass outsideMarks_bearer).textPass
      outsideMarks_bearer
  have hvendor : Free knownToken (redactPasses id id s) := by
    rw [redactPasses_eq]
    exact ((free_knownToken _).textPass outsideMarks_knownToken).textPass outsideMarks_knownToken
  have hkey : Free privateKeyBegin (redactPasses id id s) := by
    rw [redactPasses_eq]
    exact free_begin _
  exact redactPasses_eq_self hset hbearer hvendor hkey

end Twice

end UAgent
