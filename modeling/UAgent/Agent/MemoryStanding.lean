/-
UAgent/Agent/MemoryStanding.lean

One pass of the memory redactor, over a text that earlier passes have written
into.  A pass that finds the readings that are intact, and nothing else, takes
out what stands (**`RedactedTo.step`**): it goes from left to right, and of
the readings of its kind one that stands is either where it stops next or
within the firing it has just made, which drops the same.
-/
import UAgent.Agent.MemorySecrets

namespace UAgent

open Bytes Pattern Piece Traced

/-! ### The passes as one -/

/-- `[REDACTED PRIVATE KEY]` for the rest of a text: the last pass as a
replacement. -/
def unterminatedAt : Matcher := fun s => if privateKeyBeginAt s then some (0, s.length) else none

/-- What the pass of a kind matches. -/
def passMatcher : CredentialKind → Matcher
  | .assignment => assignmentAt
  | .bearer => bearerAt
  | .vendorToken => knownTokenAt
  | .privateKey => privateKeyAt
  | .truncatedKey => unterminatedAt

/-- What the pass of a kind writes. -/
def passMark : CredentialKind → Bytes
  | .assignment | .bearer | .vendorToken => redactedMark
  | .privateKey | .truncatedKey => redactedKeyMark

section Uniform

variable {α β : Type*} (byte : α → UInt8) (put : UInt8 → α)

theorem privateKeyBeginAt_iff {s : Bytes} :
    privateKeyBeginAt s = true ↔ ∃ n, n ∈ ends privateKeyBegin s := by
  rw [privateKeyBeginAt, List.isSome_head?]
  exact ⟨List.exists_mem_of_ne_nil _, fun ⟨_, h⟩ => List.ne_nil_of_mem h⟩

theorem fits_passMatcher (kind : CredentialKind) :
    Fits fun t : List α => passMatcher kind (t.map byte) := by
  intro s k d h
  rw [← List.length_map (f := byte)]
  rcases kind with - | - | - | - | -
  · exact ⟨(assignmentAt_some h).2.2.2, split_le_length h⟩
  · exact ⟨by have := (bearerAt_some h).2.2; omega, split_le_length h⟩
  · exact ⟨(knownTokenAt_some h).2.2, split_le_length h⟩
  · have hkey : privateKeyAt (s.map byte) = some (k, d) := h
    rw [privateKeyAt_eq] at hkey
    obtain ⟨⟨m, l⟩, hm, heq⟩ := Option.map_eq_some_iff.mp hkey
    obtain ⟨rfl, rfl⟩ : 0 = k ∧ m + l = d := by simpa using heq
    have hpos := privateKeyEnd_pos (mem_of_split_some hm)
    exact ⟨by omega, by simpa using split_le_length hm⟩
  · simp only [passMatcher, unterminatedAt, Option.ite_none_right_eq_some] at h
    obtain ⟨hbegin, heq⟩ := h
    obtain ⟨rfl, rfl⟩ : 0 = k ∧ s.length = d := by simpa using heq
    obtain ⟨n, hn⟩ := privateKeyBeginAt_iff.mp hbegin
    have hlen := le_length_of_mem_ends hn
    have hpos := privateKeyBegin_pos hn
    rw [List.length_map] at hlen ⊢
    omega

/-- Cutting at the first BEGIN line is replacing everything from it on. -/
theorem cutUnterminated_eq (s : List α) :
    cutUnterminated byte put s = regexReplace byte put unterminatedAt redactedKeyMark s := by
  have hfits : Fits fun t : List α => unterminatedAt (t.map byte) :=
    fits_passMatcher byte .truncatedKey
  induction s with
  | nil => rfl
  | cons c t ih =>
    by_cases hbegin : privateKeyBeginAt ((c :: t).map byte)
    · have hsome : unterminatedAt ((c :: t).map byte) = some (0, (c :: t).length) := by
        rw [unterminatedAt, if_pos hbegin, List.length_map]
      rw [cutUnterminated, searchBegin, if_pos hbegin, regexReplace, sweep_some hfits hsome]
      simp [sweep, sweepFrom]
    · have hnone : unterminatedAt ((c :: t).map byte) = none := by
        rw [unterminatedAt, if_neg hbegin]
      have hsweep : sweep (fun t => unterminatedAt (t.map byte)) (c :: t) =
          Piece.keep c :: sweep (fun t => unterminatedAt (t.map byte)) t := sweep_cons_none hnone
      rw [regexReplace, hsweep, renders_cons, render_keep, ← regexReplace, ← ih, cutUnterminated,
        searchBegin, if_neg hbegin, cutUnterminated]
      cases searchBegin byte t <;> simp

end Uniform

/-! ### One pass over a text that carries its positions -/

section Pass

variable {text : Bytes} {kind : CredentialKind} {p : Nat} {T u v : List (Traced UInt8)}
  {F G : CredentialForm}

/-- The pass of a kind, over a text that carries its positions. -/
def applyPass (kind : CredentialKind) (T : List (Traced UInt8)) : List (Traced UInt8) :=
  regexReplace Prod.fst ink (passMatcher kind) (passMark kind) T

/-- All that a reading is recognised by is still there. -/
def CredentialForm.Intact (F : CredentialForm) (T : List (Traced UInt8)) : Prop :=
  ∀ a ∈ F.anchors, ∀ i, a.Holds i → i ∈ origins T

/-- Before the pass `p`: what earlier passes take out is what stands, and no mark looks
like a line around a key. -/
structure RedactedTo (text : Bytes) (p : Nat) (T : List (Traced UInt8)) : Prop where
  derived : Derived (· = ch '[') (· = ch ']') text T
  inked : ∀ b, (b, none) ∈ T → b ≠ ch '-'
  taken : ∀ i < text.length, i ∉ origins T ↔
    ∃ F ∈ standingReadings text, F.kind.pass < p ∧ F.redacted.Holds i

/-- What a pass does to the text in front of it, in terms of the original. -/
structure PassOn (text : Bytes) (kind : CredentialKind) (T : List (Traced UInt8)) : Prop where
  /-- A match that begins in the original is a reading that is intact, and of those that
  begin there the first; what is left of its span is what the match drops. -/
  fire : ∀ u v b x k d, T = u ++ (b, some x) :: v →
    passMatcher kind (((b, some x) :: v).map Prod.fst) = some (k, d) →
    ∃ F, IsReading text F ∧ F.kind = kind ∧ F.start = x ∧ F.Intact T ∧
      (∀ G, IsReading text G → G.kind = kind → G.start = x → G.Intact T →
        G = F ∨ F.Before G ∧ F.redacted.Holds x) ∧
      ∀ j ∈ origins T, F.redacted.Holds j ↔ j ∈ origins ((((b, some x) :: v).drop k).take d)
  /-- A match that begins in a mark touches nothing of the original. -/
  dry : ∀ u v b k d, T = u ++ (b, none) :: v →
    passMatcher kind (((b, none) :: v).map Prod.fst) = some (k, d) →
    origins (((b, none) :: v).take (k + d)) = []
  /-- A reading that is intact is matched. -/
  hit : ∀ F u v b, IsReading text F → F.kind = kind → F.Intact T →
    T = u ++ (b, some F.start) :: v →
    passMatcher kind (((b, some F.start) :: v).map Prod.fst) ≠ none

theorem passMark_eq (kind : CredentialKind) :
    ∃ mid, passMark kind = ch '[' :: (mid ++ [ch ']']) := by
  rcases kind with - | - | - | - | -
  all_goals first
    | exact ⟨lit "REDACTED", by decide⟩
    | exact ⟨lit "REDACTED PRIVATE KEY", by decide⟩

/-- Two matches of one pass that begin in the same kept part drop the same. -/
theorem passMatcher_nest {s : Bytes} {k d k' d' x : Nat} (h : passMatcher kind s = some (k, d))
    (hpos : 0 < x) (hx : x < k) (h' : passMatcher kind (s.drop x) = some (k', d')) :
    x + k' = k ∧ d' = d := by
  rcases kind with - | - | - | - | -
  · obtain ⟨hk, hv, hd, -⟩ := assignmentAt_some h
    obtain ⟨hk', hv', hd', -⟩ := assignmentAt_some h'
    have hkeep := anchor_shift hk hv hx hk' hv'
    exact ⟨hkeep, by rw [hd, hd', List.drop_drop, hkeep]⟩
  · exact absurd (bearerAt_some h').1 (bearerAnchor_shift (bearerAt_some h).1 hpos hx)
  · have := (knownTokenAt_some h).1
    omega
  · rw [passMatcher, privateKeyAt_eq] at h
    obtain ⟨_, -, heq⟩ := Option.map_eq_some_iff.mp h
    have := (Prod.mk.inj heq).1
    omega
  · simp only [passMatcher, unterminatedAt, Option.ite_none_right_eq_some, Option.some.injEq] at h
    have := (Prod.mk.inj h.2).1
    omega

theorem IsReading.start_mem (hG : IsReading text G) (h : G.Intact T) : G.start ∈ origins T := by
  obtain ⟨-, -, -, -, ⟨a, ha, hstart, hlt⟩, -⟩ := readingsAt_spec hG
  exact h a ha _ ⟨hstart.le, hlt⟩

/-- A reading that takes out where another of its kind begins cuts it. -/
theorem IsReading.cuts_of_holds (hG : IsReading text G) (h : F.redacted.Holds G.start) :
    F.Cuts G := by
  obtain ⟨-, -, -, -, ⟨a, ha, hstart, hlt⟩, -⟩ := readingsAt_spec hG
  exact ⟨a, ha, Span.meets_of_holds h ⟨hstart.le, hlt⟩⟩

/-- What stands is intact until its pass. -/
theorem RedactedTo.intact (hT : RedactedTo text p T) (hG : G ∈ standingReadings text)
    (hpass : p ≤ G.kind.pass) : G.Intact T := by
  obtain ⟨hread, hfirst⟩ := mem_standingReadings.mp hG
  intro a ha i hi
  have hlen := ((readingsAt_spec hread).2.2.2.2.2 a ha).2
  by_contra hgone
  obtain ⟨F, hF, hlt, hholds⟩ := (hT.taken i (by have := hi.2; omega)).mp hgone
  exact hfirst F hF (Or.inl (by omega)) ⟨a, ha, Span.meets_of_holds hholds hi⟩

/-- What is intact is not cut by anything that stands and belongs to an earlier pass. -/
theorem RedactedTo.not_cuts (hT : RedactedTo text p T) (hG : G ∈ standingReadings text)
    (hpass : G.kind.pass < p) (hF : F.Intact T) : ¬G.Cuts F := by
  rintro ⟨a, ha, h1, h2, h3, h4⟩
  have hlen := (readingsAt_spec (mem_standingReadings.mp hG).1).2.2.2.1
  obtain ⟨i, hi, hi'⟩ : ∃ i, G.redacted.Holds i ∧ a.Holds i := by
    refine ⟨max G.redacted.start a.start, ⟨le_max_left _ _, ?_⟩, ⟨le_max_right _ _, ?_⟩⟩
    · exact max_lt h3 h2
    · exact max_lt h1 h4
  exact (hT.taken i (by have := hi.2; omega)).mpr ⟨G, hG, hpass, hi⟩ (hF a ha i hi')

theorem mem_range_of_split {z d rest pu : List (Traced UInt8)} {i : Nat}
    (hsorted : (origins (pu ++ (z ++ (d ++ rest)))).Pairwise (· < ·)) :
    (i ∈ origins z → i ∉ origins d) ∧
      (∀ j ∈ origins rest, i ∈ origins pu ∨ i ∈ origins z ∨ i ∈ origins d → i < j) := by
  simp only [origins_append, List.pairwise_append, List.mem_append] at hsorted
  obtain ⟨-, ⟨-, ⟨-, -, hdr⟩, hzd⟩, hpu⟩ := hsorted
  refine ⟨fun hz hd => lt_irrefl i (hzd i hz i (Or.inl hd)), fun j hj h => ?_⟩
  rcases h with h | h | h
  · exact hpu i h j (Or.inr (Or.inr hj))
  · exact hzd i h j (Or.inr hj)
  · exact hdr i h j hj

/-- A firing of a pass drops what a reading that stands takes out, and the readings
that stand and begin within it take out nothing else. -/
theorem RedactedTo.fired (hT : RedactedTo text kind.pass T) (hp : PassOn text kind T)
    {pu z d rest : List (Traced UInt8)} (hsplit : T = pu ++ (z ++ (d ++ rest))) (hne : d ≠ [])
    (hm : passMatcher kind ((z ++ (d ++ rest)).map Prod.fst) = some (z.length, d.length))
    (hpast : ∀ G ∈ standingReadings text, G.kind = kind → G.start ∈ origins pu →
      ∀ i ∈ origins (z ++ (d ++ rest)), ¬G.redacted.Holds i) :
    (∀ i ∈ origins d, ∃ F ∈ standingReadings text, F.kind = kind ∧ F.redacted.Holds i) ∧
      ∀ G ∈ standingReadings text, G.kind = kind → G.start ∈ origins z ∨ G.start ∈ origins d →
        ∀ i ∈ origins T, G.redacted.Holds i → i ∈ origins d := by
  have hcut : ((z ++ (d ++ rest)).drop z.length).take d.length = d := by simp
  have hlead : (z ++ (d ++ rest)).take (z.length + d.length) = z ++ d := by
    rw [← List.append_assoc, List.take_left' List.length_append]
  have hsorted : (origins (pu ++ (z ++ (d ++ rest)))).Pairwise (· < ·) :=
    hsplit ▸ hT.derived.sorted
  have hzd := fun i => (mem_range_of_split (i := i) hsorted).1
  have hmemT : ∀ i, i ∈ origins z ∨ i ∈ origins d → i ∈ origins (z ++ (d ++ rest)) := by
    intro i hi
    simp only [origins_append, List.mem_append]
    tauto
  rcases hw : z ++ (d ++ rest) with - | ⟨⟨b, o⟩, w⟩
  · simp only [List.append_eq_nil_iff] at hw
    exact absurd hw.2.1 hne
  rcases o with - | x
  · -- the firing begins in a mark
    rw [hw] at hsplit hm hlead
    have hdry := hp.dry pu w b _ _ hsplit hm
    rw [hlead, origins_append, List.append_eq_nil_iff] at hdry
    rw [hdry.1, hdry.2]
    exact ⟨fun i hi => absurd hi List.not_mem_nil,
      fun G _ _ h => absurd h (by simp)⟩
  have hm' := hm
  have hsplit' := hsplit
  rw [hw] at hsplit' hm' hcut
  obtain ⟨F, hF, rfl, rfl, hintact, hfirst, hdrops⟩ := hp.fire pu w b x _ _ hsplit' hm'
  rw [hcut] at hdrops
  obtain ⟨hbefore, hbehind⟩ := hT.derived.lt_of_split hsplit'
  have hstand : F ∈ standingReadings text := by
    refine mem_standingReadings.mpr ⟨hF, fun G hG hGF hcuts => ?_⟩
    rcases hGF with hpass | ⟨hkind, hstart | ⟨hstart, hstop⟩⟩
    · exact hT.not_cuts hG hpass hintact hcuts
    · -- one that begins further to the left has not come this far
      have hread := (mem_standingReadings.mp hG).1
      have hmem := hread.start_mem (hT.intact hG (by rw [hkind]))
      rw [hsplit', origins_append, List.mem_append, origins_cons_some, List.mem_cons] at hmem
      rcases hmem with hmem | heq | hmem
      · refine hpast G hG hkind hmem F.start ?_ (hread.swallows hF hkind hstart hcuts)
        rw [hw]
        exact List.mem_cons_self
      · omega
      · exact absurd (hbehind _ hmem) (by omega)
    · rcases hfirst G (mem_standingReadings.mp hG).1 hkind hstart
        (hT.intact hG (by rw [hkind])) with rfl | ⟨hFG, -⟩
      · exact lt_irrefl _ hstop
      · exact hFG.asymm (Or.inr ⟨hkind, Or.inr ⟨hstart, hstop⟩⟩)
  refine ⟨fun i hi => ⟨F, hstand, rfl, (hdrops i ?_).mpr hi⟩, fun G hG hkind hin i hi hholds => ?_⟩
  · rw [hsplit, origins_append, List.mem_append]
    exact Or.inr (hmemT i (Or.inr hi))
  · obtain ⟨hread, huncut⟩ := mem_standingReadings.mp hG
    have hGintact := hT.intact hG (by rw [hkind])
    rcases hin with hz | hd
    · -- a match that begins in the kept part is the same one
      obtain ⟨c, hc⟩ := mem_origins.mp hz
      obtain ⟨z₁, z₂, rfl⟩ := List.append_of_mem hc
      have hT' : T = (pu ++ z₁) ++ (c, some G.start) :: (z₂ ++ (d ++ rest)) := by
        rw [hsplit]
        simp
      have hhit := hp.hit G _ _ c hread hkind hGintact hT'
      obtain ⟨⟨k', d'⟩, hm₁⟩ := Option.ne_none_iff_exists'.mp hhit
      have hkeep : k' = z₂.length + 1 ∧ d' = d.length := by
        rcases z₁ with - | ⟨c₁, z₁⟩
        · have hsame : passMatcher F.kind (((c, some G.start) :: (z₂ ++ (d ++ rest))).map
              Prod.fst) = some (z₂.length + 1, d.length) := by simpa using hm
          simpa using hm₁.symm.trans hsame
        · have hdrop : ((c₁ :: z₁ ++ (c, some G.start) :: z₂ ++ (d ++ rest)).map Prod.fst).drop
              (c₁ :: z₁).length =
                ((c, some G.start) :: (z₂ ++ (d ++ rest))).map Prod.fst := by
            rw [← List.map_drop, List.append_assoc, List.drop_left, List.cons_append]
          obtain ⟨h1, h2⟩ := passMatcher_nest hm (x := (c₁ :: z₁).length) (by simp)
            (by simp only [List.length_append, List.length_cons]; omega) (hdrop.symm ▸ hm₁)
          simp only [List.length_append, List.length_cons] at h1
          exact ⟨by omega, h2⟩
      obtain ⟨rfl, rfl⟩ := hkeep
      obtain ⟨G', hG', -, -, -, hfirst', hdrops'⟩ := hp.fire _ _ c _ _ _ hT' hm₁
      have hcut' : (((c, some G.start) :: (z₂ ++ (d ++ rest))).drop (z₂.length + 1)).take
          d.length = d := by simp
      rw [hcut'] at hdrops'
      rcases hfirst' G hread hkind rfl hGintact with rfl | ⟨-, hin⟩
      · exact (hdrops' i hi).mp hholds
      · have hmem := (hdrops' _ (hread.start_mem hGintact)).mp hin
        exact absurd hmem (hzd _ hz)
    · -- what begins in the dropped part is cut
      have hmem := hread.start_mem hGintact
      have hin : F.redacted.Holds G.start := (hdrops _ hmem).mpr hd
      have hcuts := hread.cuts_of_holds hin
      have hle : F.start = G.start ∨ F.start < G.start := by
        have hd' := hmemT _ (Or.inr hd)
        rw [hw, origins_cons_some, List.mem_cons] at hd'
        exact hd'.imp Eq.symm fun h => hbehind _ h
      rcases hle with heq | hlt
      · rcases hfirst G hread hkind heq.symm hGintact with rfl | ⟨hFG, -⟩
        · exact (hdrops i hi).mp hholds
        · exact absurd hcuts (huncut F hstand hFG)
      · exact absurd hcuts (huncut F hstand (Or.inr ⟨hkind.symm, Or.inl hlt⟩))

/-- What a pass leaves is what no reading of its kind that stands takes out, by
induction over the pieces of the pass: behind each of them, none that began before
reaches any further. -/
theorem RedactedTo.swept (hT : RedactedTo text kind.pass T) (hp : PassOn text kind T)
    {ps : List (Piece (Traced UInt8))}
    (hswept : Swept (fun t => passMatcher kind (t.map Prod.fst)) ps) {pu : List (Traced UInt8)}
    (hsplit : T = pu ++ sources ps)
    (hpast : ∀ G ∈ standingReadings text, G.kind = kind → G.start ∈ origins pu →
      ∀ i ∈ origins (sources ps), ¬G.redacted.Holds i) :
    ∀ i ∈ origins (sources ps), i ∈ origins (renders ((passMark kind).map ink) ps) ↔
      ∀ G ∈ standingReadings text, G.kind = kind → ¬G.redacted.Holds i := by
  induction hswept generalizing pu with
  | nil => exact fun i hi => absurd hi List.not_mem_nil
  | @pass c ps hnone _ ih =>
    have hsplit' : T = (pu ++ [c]) ++ sources ps := by
      rw [hsplit]
      simp
    -- where nothing is matched, nothing that stands begins
    have hnot : ∀ G ∈ standingReadings text, G.kind = kind → G.start ∉ origins [c] := by
      rintro G hG hkind hmem
      obtain ⟨b, hb⟩ := mem_origins.mp hmem
      obtain rfl : c = (b, some G.start) := (List.mem_singleton.mp hb).symm
      exact hp.hit G pu _ b (mem_standingReadings.mp hG).1 hkind (hT.intact hG (by rw [hkind])) hsplit hnone
    have hrest := ih hsplit' fun G hG hkind hstart i hi => by
      rw [origins_append, List.mem_append] at hstart
      refine hpast G hG hkind (hstart.resolve_right (hnot G hG hkind)) i ?_
      rw [sources_cons, origins_append, List.mem_append]
      exact Or.inr hi
    intro i hi
    rw [sources_cons, source_keep, origins_append, List.mem_append] at hi
    rw [renders_cons, render_keep, origins_append, List.mem_append]
    by_cases hrestmem : i ∈ origins (sources ps)
    · have hfirst : i ∉ origins [c] := fun hmem => by
        have hlt := hT.derived.sorted
        rw [hsplit', origins_append, origins_append, List.pairwise_append] at hlt
        exact lt_irrefl i (hlt.2.2 i (List.mem_append_right _ hmem) i hrestmem)
      rw [← hrest i hrestmem, or_iff_right hfirst]
    · have hc := hi.resolve_right hrestmem
      refine iff_of_true (Or.inl hc) fun G hG hkind hholds => ?_
      obtain ⟨hread, -⟩ := mem_standingReadings.mp hG
      have hstart := hread.start_mem (hT.intact hG (by rw [hkind]))
      have hle : G.start ≤ i := (readingsAt_spec hread).2.2.1.trans hholds.1
      rw [hsplit', origins_append, origins_append, List.mem_append, List.mem_append] at hstart
      rcases hstart with (hpu | hmem) | hbehind
      · refine hpast G hG hkind hpu i ?_ hholds
        rw [sources_cons, source_keep, origins_append, List.mem_append]
        exact Or.inl hc
      · exact hnot G hG hkind hmem
      · have hlt := hT.derived.sorted
        rw [hsplit', origins_append, origins_append, List.pairwise_append] at hlt
        have := hlt.2.2 i (List.mem_append_right _ hc) _ hbehind
        omega
  | @fire z d ps hm hne _ ih =>
    have hsrc : sources (z.map Piece.keep ++ Piece.cut d :: ps) = z ++ (d ++ sources ps) := by simp
    rw [hsrc] at hsplit hpast ⊢
    obtain ⟨hdrops, hwithin⟩ := hT.fired hp hsplit hne hm hpast
    have hsorted : (origins (pu ++ (z ++ (d ++ sources ps)))).Pairwise (· < ·) :=
      hsplit ▸ hT.derived.sorted
    have hsplit' : T = (pu ++ (z ++ d)) ++ sources ps := by
      rw [hsplit]
      simp
    have hmemT : ∀ i ∈ origins (z ++ (d ++ sources ps)), i ∈ origins T := fun i hi => by
      rw [hsplit, origins_append]
      exact List.mem_append_right _ hi
    have hrest := ih hsplit' fun G hG hkind hstart i hi hholds => by
      have hi' : i ∈ origins (z ++ (d ++ sources ps)) := by
        simp only [origins_append, List.mem_append]
        exact Or.inr (Or.inr hi)
      simp only [origins_append, List.mem_append] at hstart
      rcases hstart with hpu | hzd
      · exact hpast G hG hkind hpu i hi' hholds
      · have hd := hwithin G hG hkind hzd i (hmemT i hi') hholds
        exact lt_irrefl i ((mem_range_of_split hsorted).2 i hi (Or.inr (Or.inr hd)))
    intro i hi
    rw [renders_append, renders_map_keep, renders_cons, render_cut, origins_append, origins_append,
      origins_map_ink, List.nil_append, List.mem_append]
    have hi' := hi
    rw [origins_append, origins_append, List.mem_append, List.mem_append] at hi'
    rcases hi' with hz | hd | hbehind
    · refine iff_of_true (Or.inl hz) fun G hG hkind hholds => ?_
      obtain ⟨hread, -⟩ := mem_standingReadings.mp hG
      have hstart := hread.start_mem (hT.intact hG (by rw [hkind]))
      have hle : G.start ≤ i := (readingsAt_spec hread).2.2.1.trans hholds.1
      rw [hsplit, origins_append, origins_append, origins_append, List.mem_append, List.mem_append,
        List.mem_append, ← or_assoc (a := G.start ∈ origins z)] at hstart
      rcases hstart with hpu | hzd | hbehind
      · exact hpast G hG hkind hpu i hi hholds
      · exact (mem_range_of_split hsorted).1 hz (hwithin G hG hkind hzd i (hmemT i hi) hholds)
      · have := (mem_range_of_split hsorted).2 _ hbehind (Or.inr (Or.inl hz))
        omega
    · obtain ⟨F, hF, hkind, hholds⟩ := hdrops i hd
      refine iff_of_false ?_ fun h => h F hF hkind hholds
      rintro (hz | hbehind)
      · exact (mem_range_of_split hsorted).1 hz hd
      · have hsource := origins_renders_sublist.subset hbehind
        exact lt_irrefl i ((mem_range_of_split hsorted).2 i hsource (Or.inr (Or.inr hd)))
    · rw [← hrest i hbehind, or_iff_right]
      exact fun hz => lt_irrefl i ((mem_range_of_split hsorted).2 i hbehind (Or.inr (Or.inl hz)))

theorem fst_ne_dash_of_mem_passMark {b : UInt8} (h : (b, none) ∈ (passMark kind).map ink) :
    b ≠ ch '-' := by
  obtain ⟨c, hc, heq⟩ := List.mem_map.mp h
  obtain rfl : c = b := (Prod.mk.inj heq).1
  have hdash : ch '-' ∉ passMark kind := by rcases kind with - | - | - | - | - <;> decide
  rintro rfl
  exact hdash hc

theorem CredentialKind.pass_injective {k k' : CredentialKind} (h : k.pass = k'.pass) : k = k' := by
  cases k <;> cases k' <;> first | rfl | exact absurd h (by decide)

/-- **One pass**: from before a pass to before the next. -/
theorem RedactedTo.step (hT : RedactedTo text kind.pass T) (hp : PassOn text kind T) :
    RedactedTo text (kind.pass + 1) (applyPass kind T) := by
  have hsrc : sources (sweep (fun t => passMatcher kind (t.map Prod.fst)) T) = T :=
    sources_sweep (fits_passMatcher Prod.fst kind) T
  have hswept := swept_sweep (fits_passMatcher (Prod.fst (α := UInt8) (β := Option Nat)) kind) T
  have happly : applyPass kind T = renders ((passMark kind).map ink)
      (sweep (fun t => passMatcher kind (t.map Prod.fst)) T) := rfl
  refine ⟨?_, fun b hb => ?_, fun i hlt => ?_⟩
  · obtain ⟨mid, hmid⟩ := passMark_eq kind
    have hcuts : Traced.Cuts (sweep (fun t => passMatcher kind (t.map Prod.fst)) T) := fun d hd => by
      obtain ⟨pu, pv, hps⟩ := List.append_of_mem hd
      obtain ⟨-, -, -, hne, -⟩ := hswept.cut_fired hps
      exact hne
    exact Derived.sweep (hsrc.symm ▸ hT.derived) hcuts hmid rfl rfl
  · obtain ⟨u, v, huv⟩ := List.append_of_mem hb
    rcases renders_eq_append_cons (happly ▸ huv) with
      ⟨pu, pv, hps, -⟩ | ⟨pu, d, pv, as, bs, -, hmark, -⟩
    · refine hT.inked b ?_
      rw [← hsrc, hps]
      simp
    · exact fst_ne_dash_of_mem_passMark (by rw [hmark]; simp)
  · have hwhole : T = ([] : List (Traced UInt8)) ++
        sources (sweep (fun t => passMatcher kind (t.map Prod.fst)) T) := hsrc.symm
    have hone := hT.swept hp hswept hwhole fun _ _ _ h => absurd h List.not_mem_nil
    rw [hsrc] at hone
    -- what earlier passes have taken out, and what this one does
    have hsub : i ∈ origins (applyPass kind T) → i ∈ origins T := fun h =>
      hsrc ▸ origins_renders_sublist.subset h
    have hpasses : ∀ F : CredentialForm, F.kind.pass < kind.pass + 1 ↔
        F.kind.pass < kind.pass ∨ F.kind = kind := fun F => by
      refine ⟨fun h => ?_, ?_⟩
      · exact (Nat.lt_succ_iff.mp h).lt_or_eq.imp_right CredentialKind.pass_injective
      · rintro (h | rfl) <;> omega
    by_cases hi : i ∈ origins T
    · have hearlier : ∀ F ∈ standingReadings text, F.kind.pass < kind.pass → ¬F.redacted.Holds i :=
        fun F hF hpass hholds => (hT.taken i hlt).mpr ⟨F, hF, hpass, hholds⟩ hi
      rw [happly, hone i hi]
      push Not
      refine exists_congr fun F => and_congr_right fun hF => ?_
      rw [hpasses]
      refine ⟨fun h => ⟨Or.inr h.1, h.2⟩, fun h => ⟨h.1.resolve_left fun hpass => ?_, h.2⟩⟩
      exact hearlier F hF hpass h.2
    · obtain ⟨F, hF, hpass, hholds⟩ := (hT.taken i hlt).mp hi
      exact iff_of_true (fun h => hi (hsub h)) ⟨F, hF, (hpasses F).mpr (Or.inl hpass), hholds⟩

end Pass

end UAgent
