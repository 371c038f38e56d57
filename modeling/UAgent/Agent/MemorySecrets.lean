/-
UAgent/Agent/MemorySecrets.lean

What the memory redactor takes out.  The forms of a text are its credentials
as the redactor's own patterns know them, at every position and in any
overlap: an assigned value, a bearer token, a vendor token, a PEM key and a
PEM key that is cut off.  A secret survives when a byte of it is still there
behind the last pass; the passes are followed over a text whose bytes carry
their positions.

A pass writes its mark over a whole value, and a later pass may have needed
that value to recognise its own form: in `Authorization: Bearer <token>` the
assignment takes `Bearer` out as its value, and the token stays.  So not
every form stands.  Which ones do is settled on the text, without its passes:
first come, first served in the order of the passes and from left to right, a
reading stands when nothing it is recognised by is taken out with one that
stands already.  What a pass takes out is what stands (`RedactedTo.step`), so
the secrets that survive are those of forms that are cut and that nothing
else covers (`redact_sound`).
-/
import UAgent.Agent.MemoryPasses
import UAgent.Base.FirstCome
import UAgent.Base.Traced

namespace UAgent

open Bytes Pattern Piece Traced

/-! ### Forms -/

/-- Positions from `start` up to `stop`. -/
structure Span where
  start : Nat
  stop : Nat
  deriving DecidableEq

namespace Span

/-- A position of a span. -/
def Holds (s : Span) (i : Nat) : Prop := s.start ≤ i ∧ i < s.stop

/-- Two spans share a position. -/
def Meets (s t : Span) : Prop := s.start < t.stop ∧ t.start < s.stop ∧ s.start < s.stop ∧
  t.start < t.stop

/-- One span lies in the other. -/
def Within (s t : Span) : Prop := t.start ≤ s.start ∧ s.stop ≤ t.stop

instance (s : Span) (i : Nat) : Decidable (s.Holds i) :=
  inferInstanceAs (Decidable (_ ∧ _))

instance (s t : Span) : Decidable (s.Meets t) := inferInstanceAs (Decidable (_ ∧ _))

instance (s t : Span) : Decidable (s.Within t) := inferInstanceAs (Decidable (_ ∧ _))

theorem meets_of_holds {s t : Span} {i : Nat} (hs : s.Holds i) (ht : t.Holds i) : s.Meets t := by
  obtain ⟨hs1, hs2⟩ := hs
  obtain ⟨ht1, ht2⟩ := ht
  exact ⟨by omega, by omega, by omega, by omega⟩

theorem Within.holds {s t : Span} (h : s.Within t) {i : Nat} (hi : s.Holds i) : t.Holds i :=
  ⟨h.1.trans hi.1, hi.2.trans_le h.2⟩

end Span

/-- The kinds of credentials, in the order of the passes that know them. -/
inductive CredentialKind
  | assignment
  | bearer
  | vendorToken
  | privateKey
  | truncatedKey
  deriving DecidableEq

/-- The pass that redacts a kind. -/
def CredentialKind.pass : CredentialKind → Nat
  | assignment => 0
  | bearer => 1
  | vendorToken => 2
  | privateKey => 3
  | truncatedKey => 4

/-- A credential of a text: where it begins, the secret of it, what its pass takes
out with the secret, and the parts that pass must see to recognise it. -/
structure CredentialForm where
  kind : CredentialKind
  start : Nat
  secret : Span
  redacted : Span
  anchors : List Span
  deriving DecidableEq

/-- The form of a kind that begins at `x`.  A bearer token is recognised by its
first twelve characters, a vendor token by all of them, and a key by the lines
around its body. -/
def formAt (text : Bytes) (kind : CredentialKind) (x : Nat) : Option CredentialForm :=
  let s := text.drop x
  match kind with
  | .assignment => (assignmentAt s).map fun m =>
    ⟨kind, x, ⟨x + m.1, x + m.1 + m.2⟩, ⟨x + m.1, x + m.1 + m.2⟩, [⟨x, x + m.1⟩]⟩
  | .bearer => (bearerAt s).map fun m =>
    ⟨kind, x, ⟨x + m.1, x + m.1 + m.2⟩, ⟨x + m.1, x + m.1 + m.2⟩, [⟨x, x + m.1 + 12⟩]⟩
  | .vendorToken => (knownTokenAt s).map fun m =>
    ⟨kind, x, ⟨x, x + m.2⟩, ⟨x, x + m.2⟩, [⟨x, x + m.2⟩]⟩
  | .privateKey => (ends privateKeyBegin s).head?.bind fun n =>
    (split privateKeyBody privateKeyEnd s).map fun m =>
      ⟨kind, x, ⟨x + n, x + m.1⟩, ⟨x, x + m.1 + m.2⟩, [⟨x, x + n⟩, ⟨x + m.1, x + m.1 + m.2⟩]⟩
  | .truncatedKey =>
    if privateKeyAt s = none then
      (ends privateKeyBegin s).head?.map fun n =>
        ⟨kind, x, ⟨x + n, text.length⟩, ⟨x, text.length⟩, [⟨x, x + n⟩]⟩
    else none

/-- The kinds in the order of their passes. -/
def credentialKinds : List CredentialKind :=
  [.assignment, .bearer, .vendorToken, .privateKey, .truncatedKey]

/-- The credentials of a text, wherever one begins. -/
def forms (text : Bytes) : List CredentialForm :=
  credentialKinds.flatMap fun kind => (List.range text.length).filterMap (formAt text kind)

/-! ### What stands -/

/-- What can become of a form.  A BEGIN line whose END line is gone goes on to a later
one, and to the end of the text when there is none; the other forms are read in one way. -/
def readingsAt (text : Bytes) (kind : CredentialKind) (x : Nat) : List CredentialForm :=
  let s := text.drop x
  match kind with
  | .privateKey => (ends privateKeyBegin s).head?.toList.flatMap fun n =>
    (List.range (s.length - n)).filterMap fun t =>
      (ends privateKeyEnd (s.drop (n + t))).head?.map fun l =>
        ⟨kind, x, ⟨x + n, x + n + t⟩, ⟨x, x + n + t + l⟩,
          [⟨x, x + n⟩, ⟨x + n + t, x + n + t + l⟩]⟩
  | .truncatedKey => (ends privateKeyBegin s).head?.toList.map fun n =>
    ⟨kind, x, ⟨x + n, text.length⟩, ⟨x, text.length⟩, [⟨x, x + n⟩]⟩
  | _ => (formAt text kind x).toList

/-- The readings of a text, in the order they are redacted in. -/
def readings (text : Bytes) : List CredentialForm :=
  credentialKinds.flatMap fun kind => (List.range text.length).flatMap (readingsAt text kind)

/-- The reading that is redacted first: by an earlier pass, or by the same one
further to the left or up to an END line further to the left. -/
def CredentialForm.Before (F G : CredentialForm) : Prop :=
  F.kind.pass < G.kind.pass ∨
    F.kind = G.kind ∧ (F.start < G.start ∨ F.start = G.start ∧ F.secret.stop < G.secret.stop)

/-- Redacting `F` takes away what `G` is recognised by. -/
def CredentialForm.Cuts (F G : CredentialForm) : Prop := ∃ a ∈ G.anchors, F.redacted.Meets a

instance (F G : CredentialForm) : Decidable (F.Before G) := inferInstanceAs (Decidable (_ ∨ _))

instance : DecidableRel CredentialForm.Cuts := fun F G =>
  inferInstanceAs (Decidable (∃ a ∈ G.anchors, F.redacted.Meets a))

/-- The readings that stand: no other that stands and is redacted before cuts them. -/
def standingReadings (text : Bytes) : List CredentialForm :=
  FirstCome.keep CredentialForm.Cuts (readings text)

/-- All of a secret goes with readings that stand. -/
def CredentialForm.Covered (G : CredentialForm) (text : Bytes) : Prop :=
  ∀ i < G.secret.stop, G.secret.start ≤ i → ∃ H ∈ standingReadings text, H.redacted.Holds i

instance (text : Bytes) (G : CredentialForm) : Decidable (G.Covered text) :=
  inferInstanceAs (Decidable (∀ i < G.secret.stop, G.secret.start ≤ i →
    ∃ H ∈ standingReadings text, H.redacted.Holds i))

/-- A form that is cut by one that stands and is redacted before it is covered by
those that stand. -/
def Untangled (text : Bytes) : Prop :=
  ∀ F ∈ standingReadings text, ∀ G ∈ forms text, F.Before G → F.Cuts G → G.Covered text

instance (text : Bytes) : Decidable (Untangled text) :=
  inferInstanceAs (Decidable (∀ F ∈ standingReadings text, ∀ G ∈ forms text,
    F.Before G → F.Cuts G → G.Covered text))

/-! ### What survives -/

/-- `RedactMemorySecrets` over a text whose bytes carry their positions. -/
def redactTraced (text : Bytes) : List (Traced UInt8) :=
  if mentionsSecret text then redactPasses Prod.fst ink (positions 0 text) else positions 0 text

/-- The positions of the text that are still there when it is redacted. -/
def survivors (text : Bytes) : List Nat := origins (redactTraced text)

/-- No byte of the secret of any credential survives. -/
def NoSecretSurvives (text : Bytes) : Prop :=
  ∀ F ∈ forms text, ∀ i ∈ survivors text, ¬F.secret.Holds i

instance (text : Bytes) : Decidable (NoSecretSurvives text) :=
  inferInstanceAs (Decidable (∀ F ∈ forms text, ∀ i ∈ survivors text, ¬F.secret.Holds i))

/-! ### The form at a position -/

section Readings

variable {text : Bytes} {kind : CredentialKind} {x : Nat} {F G : CredentialForm}

/-- A reading is where its kind and its beginning say. -/
def IsReading (text : Bytes) (F : CredentialForm) : Prop := F ∈ readingsAt text F.kind F.start

theorem mem_readingsAt_privateKey :
    F ∈ readingsAt text .privateKey x ↔ ∃ n t l, (ends privateKeyBegin (text.drop x)).head? = some n ∧
      (ends privateKeyEnd (text.drop (x + n + t))).head? = some l ∧
      F = ⟨.privateKey, x, ⟨x + n, x + n + t⟩, ⟨x, x + n + t + l⟩,
        [⟨x, x + n⟩, ⟨x + n + t, x + n + t + l⟩]⟩ := by
  simp only [readingsAt, List.mem_flatMap, Option.mem_toList, List.mem_filterMap, List.mem_range,
    Option.map_eq_some_iff, List.drop_drop, Nat.add_assoc]
  constructor
  · rintro ⟨n, hn, t, -, l, hl, rfl⟩
    exact ⟨n, t, l, hn, hl, rfl⟩
  · rintro ⟨n, t, l, hn, hl, rfl⟩
    refine ⟨n, hn, t, ?_, l, hl, rfl⟩
    have hlen := le_length_of_mem_ends (List.mem_of_head? hl)
    have hpos := privateKeyEnd_pos (List.mem_of_head? hl)
    simp only [List.length_drop] at hlen ⊢
    omega

theorem mem_readingsAt_truncatedKey :
    F ∈ readingsAt text .truncatedKey x ↔ ∃ n, (ends privateKeyBegin (text.drop x)).head? = some n ∧
      F = ⟨.truncatedKey, x, ⟨x + n, text.length⟩, ⟨x, text.length⟩, [⟨x, x + n⟩]⟩ := by
  simp only [readingsAt, List.mem_map, Option.mem_toList, eq_comm]

/-- The forms that are read in one way. -/
theorem mem_readingsAt_of_lt (h : kind.pass < 3) :
    F ∈ readingsAt text kind x ↔ formAt text kind x = some F := by
  rcases kind with - | - | - | - | -
  iterate 3 exact Option.mem_toList
  all_goals exact absurd h (by decide)

theorem privateKeyBegin_pos {s : Bytes} {n : Nat} (h : n ∈ ends privateKeyBegin s) : 0 < n := by
  have hlen := (mem_ends_pemLine h).2
  omega

/-- Where a reading begins, what it takes out, and what it is recognised by. -/
theorem readingsAt_spec (h : F ∈ readingsAt text kind x) :
    F.kind = kind ∧ F.start = x ∧ x ≤ F.redacted.start ∧ F.redacted.stop ≤ text.length ∧
      (∃ a ∈ F.anchors, a.start = x ∧ x < a.stop) ∧
      ∀ a ∈ F.anchors, x ≤ a.start ∧ a.stop ≤ text.length := by
  have hdrop : ∀ {n : Nat}, 0 < n → n ≤ (text.drop x).length → x + n ≤ text.length := by
    intro n hpos hn
    rw [List.length_drop] at hn
    omega
  -- The anchor of each kind begins where the reading does.
  rcases kind with - | - | - | - | -
  · obtain ⟨⟨k, d⟩, hm, rfl⟩ := Option.map_eq_some_iff.mp ((mem_readingsAt_of_lt (by decide)).mp h)
    obtain ⟨hk, hv, -, hpos⟩ := assignmentAt_some hm
    have hlong := (anchor_spec hk hv).2.2.1
    have hle := hdrop (by omega) (split_le_length hm)
    refine ⟨rfl, rfl, Nat.le_add_right x k, by simpa [Nat.add_assoc] using hle,
      ⟨_, List.mem_cons_self, rfl, by simp; omega⟩, ?_⟩
    simp only [List.mem_singleton, forall_eq]
    omega
  · obtain ⟨⟨k, d⟩, hm, rfl⟩ := Option.map_eq_some_iff.mp ((mem_readingsAt_of_lt (by decide)).mp h)
    obtain ⟨-, -, hpos⟩ := bearerAt_some hm
    have hle := hdrop (by omega) (split_le_length hm)
    refine ⟨rfl, rfl, Nat.le_add_right x k, by simpa [Nat.add_assoc] using hle,
      ⟨_, List.mem_cons_self, rfl, by simp; omega⟩, ?_⟩
    simp only [List.mem_singleton, forall_eq]
    omega
  · obtain ⟨⟨k, d⟩, hm, rfl⟩ := Option.map_eq_some_iff.mp ((mem_readingsAt_of_lt (by decide)).mp h)
    obtain ⟨-, hd, hpos⟩ := knownTokenAt_some hm
    have hle := hdrop hpos (le_length_of_mem_ends (List.mem_of_head? hd))
    refine ⟨rfl, rfl, le_rfl, hle, ⟨_, List.mem_cons_self, rfl, by simp; omega⟩, ?_⟩
    simp only [List.mem_singleton, forall_eq]
    omega
  · obtain ⟨n, t, l, hn, hl, rfl⟩ := mem_readingsAt_privateKey.mp h
    have hpos := privateKeyBegin_pos (List.mem_of_head? hn)
    have hend := privateKeyEnd_pos (List.mem_of_head? hl)
    have hlen := le_length_of_mem_ends (List.mem_of_head? hl)
    rw [List.length_drop] at hlen
    refine ⟨rfl, rfl, le_rfl, by simp only; omega,
      ⟨_, List.mem_cons_self, rfl, by simp only; omega⟩, ?_⟩
    simp only [List.mem_cons, List.not_mem_nil, or_false, forall_eq_or_imp, forall_eq]
    omega
  · obtain ⟨n, hn, rfl⟩ := mem_readingsAt_truncatedKey.mp h
    have hpos := privateKeyBegin_pos (List.mem_of_head? hn)
    have hle := hdrop hpos (le_length_of_mem_ends (List.mem_of_head? hn))
    refine ⟨rfl, rfl, le_rfl, le_rfl, ⟨_, List.mem_cons_self, rfl, by simp only; omega⟩, ?_⟩
    simp only [List.mem_singleton, forall_eq]
    omega

theorem IsReading.of_mem (h : F ∈ readingsAt text kind x) : IsReading text F := by
  obtain ⟨rfl, rfl, -⟩ := readingsAt_spec h
  exact h

theorem mem_readings : F ∈ readings text ↔ IsReading text F := by
  simp only [readings, List.mem_flatMap, List.mem_range]
  constructor
  · rintro ⟨kind, -, x, -, hF⟩
    exact IsReading.of_mem hF
  · intro hF
    obtain ⟨-, -, -, -, ⟨a, ha, hstart, hlt⟩, hanchors⟩ := readingsAt_spec hF
    have hstop := (hanchors a ha).2
    exact ⟨F.kind, by cases F.kind <;> simp [credentialKinds], F.start, by omega, hF⟩

/-- A form is a reading, and its secret goes with what is taken out. -/
theorem isReading_of_formAt (h : formAt text kind x = some F) :
    IsReading text F ∧ F.secret.Within F.redacted := by
  rcases kind with - | - | - | - | -
  · refine ⟨IsReading.of_mem ((mem_readingsAt_of_lt (by decide)).mpr h), ?_⟩
    obtain ⟨_, -, rfl⟩ := Option.map_eq_some_iff.mp h
    exact ⟨le_rfl, le_rfl⟩
  · refine ⟨IsReading.of_mem ((mem_readingsAt_of_lt (by decide)).mpr h), ?_⟩
    obtain ⟨_, -, rfl⟩ := Option.map_eq_some_iff.mp h
    exact ⟨le_rfl, le_rfl⟩
  · refine ⟨IsReading.of_mem ((mem_readingsAt_of_lt (by decide)).mpr h), ?_⟩
    obtain ⟨_, -, rfl⟩ := Option.map_eq_some_iff.mp h
    exact ⟨le_rfl, le_rfl⟩
  · obtain ⟨n', hn', hF⟩ := Option.bind_eq_some_iff.mp h
    obtain ⟨⟨m, l⟩, hm, rfl⟩ := Option.map_eq_some_iff.mp hF
    obtain ⟨n, t, hn, rfl, -, -⟩ := privateKey_split hm
    obtain rfl : n' = n := pemLine_unique (List.mem_of_head? hn') hn
    have hl : (ends privateKeyEnd (text.drop (x + n' + t))).head? = some l := by
      have hread := mem_of_split_some hm
      rw [List.drop_drop, ← Nat.add_assoc] at hread
      obtain ⟨l', hl'⟩ : ∃ l', (ends privateKeyEnd (text.drop (x + n' + t))).head? = some l' :=
        Option.isSome_iff_exists.mp (List.isSome_head?.mpr (List.ne_nil_of_mem hread))
      rw [hl', pemLine_unique (List.mem_of_head? hl') hread]
    refine ⟨IsReading.of_mem (mem_readingsAt_privateKey.mpr ⟨n', t, l, hn', hl, ?_⟩), ?_⟩
    · simp [Nat.add_assoc]
    · exact ⟨by simp, by simp⟩
  · simp only [formAt, Option.ite_none_right_eq_some] at h
    obtain ⟨n, hn, rfl⟩ := Option.map_eq_some_iff.mp h.2
    exact ⟨IsReading.of_mem (mem_readingsAt_truncatedKey.mpr ⟨n, hn, rfl⟩), ⟨by simp, le_rfl⟩⟩

theorem mem_forms (h : F ∈ forms text) : IsReading text F ∧ F.secret.Within F.redacted := by
  obtain ⟨kind, -, hF⟩ := List.mem_flatMap.mp h
  obtain ⟨x, -, hF⟩ := List.mem_filterMap.mp hF
  exact isReading_of_formAt hF

/-- Readings of one kind that begin at one position are the same, or a key with two
END lines behind it. -/
theorem IsReading.ext (hF : IsReading text F) (hG : IsReading text G) (hkind : F.kind = G.kind)
    (hstart : F.start = G.start) (hstop : F.kind = .privateKey → F.secret.stop = G.secret.stop) :
    F = G := by
  rw [IsReading, ← hkind, ← hstart] at hG
  rw [IsReading] at hF
  generalize F.start = x at hF hG
  have hone : ∀ {kind : CredentialKind}, kind.pass < 3 → F ∈ readingsAt text kind x →
      G ∈ readingsAt text kind x → F = G := fun hlt h h' =>
    Option.some.inj (((mem_readingsAt_of_lt hlt).mp h).symm.trans ((mem_readingsAt_of_lt hlt).mp h'))
  cases hk : F.kind with
  | privateKey =>
    have heq := hstop hk
    rw [hk] at hF hG
    obtain ⟨n, t, l, hn, hl, rfl⟩ := mem_readingsAt_privateKey.mp hF
    obtain ⟨n', t', l', hn', hl', rfl⟩ := mem_readingsAt_privateKey.mp hG
    obtain rfl : n = n' := Option.some.inj (hn.symm.trans hn')
    obtain rfl : t = t' := by simpa using heq
    obtain rfl : l = l' := Option.some.inj (hl.symm.trans hl')
    rfl
  | truncatedKey =>
    rw [hk] at hF hG
    obtain ⟨n, hn, rfl⟩ := mem_readingsAt_truncatedKey.mp hF
    obtain ⟨n', hn', rfl⟩ := mem_readingsAt_truncatedKey.mp hG
    obtain rfl : n = n' := Option.some.inj (hn.symm.trans hn')
    rfl
  | assignment => exact hone (by decide) (hk ▸ hF) (hk ▸ hG)
  | bearer => exact hone (by decide) (hk ▸ hF) (hk ▸ hG)
  | vendorToken => exact hone (by decide) (hk ▸ hF) (hk ▸ hG)

/-! ### The order of the readings -/

theorem CredentialForm.Before.asymm (h : F.Before G) : ¬G.Before F := by
  rintro h'
  rcases h with h | ⟨hk, h⟩ <;> rcases h' with h' | ⟨hk', h'⟩
  · omega
  · rw [hk'] at h
    omega
  · rw [hk] at h'
    omega
  · omega

theorem sorted_readings (text : Bytes) : (readings text).Pairwise CredentialForm.Before := by
  refine List.pairwise_flatMap.mpr ⟨fun kind _ => ?_, ?_⟩
  · refine List.pairwise_flatMap.mpr ⟨fun x _ => ?_, ?_⟩
    · have hone : ∀ {o : Option CredentialForm}, o.toList.Pairwise CredentialForm.Before := by
        intro o
        cases o <;> simp
      rcases kind with - | - | - | - | -
      · exact hone
      · exact hone
      · exact hone
      · -- a key is read up to one END line after the other
        simp only [readingsAt]
        cases (ends privateKeyBegin (text.drop x)).head? with
        | none => exact .nil
        | some n =>
          simp only [Option.toList_some, List.flatMap_singleton]
          refine List.pairwise_filterMap.mpr (List.pairwise_lt_range.imp fun hlt => ?_)
          intro F hF G hG
          obtain ⟨l, -, rfl⟩ := Option.map_eq_some_iff.mp hF
          obtain ⟨l', -, rfl⟩ := Option.map_eq_some_iff.mp hG
          exact Or.inr ⟨rfl, Or.inr ⟨rfl, by simp only; omega⟩⟩
      · simp only [readingsAt]
        cases (ends privateKeyBegin (text.drop x)).head? <;> simp
    · refine List.pairwise_lt_range.imp fun hlt F hF G hG => ?_
      obtain ⟨hkF, hxF, -⟩ := readingsAt_spec hF
      obtain ⟨hkG, hxG, -⟩ := readingsAt_spec hG
      exact Or.inr ⟨hkF.trans hkG.symm, Or.inl (by omega)⟩
  · have hkinds : credentialKinds.Pairwise fun k k' => k.pass < k'.pass := by decide
    refine hkinds.imp fun hlt F hF G hG => ?_
    obtain ⟨x, -, hF⟩ := List.mem_flatMap.mp hF
    obtain ⟨y, -, hG⟩ := List.mem_flatMap.mp hG
    exact Or.inl (by rwa [(readingsAt_spec hF).1, (readingsAt_spec hG).1])

/-- **What stands**: the readings that no other that stands and is redacted before
cuts. -/
theorem mem_standingReadings :
    F ∈ standingReadings text ↔ IsReading text F ∧ ∀ G ∈ standingReadings text, G.Before F → ¬G.Cuts F := by
  rw [standingReadings, FirstCome.mem_keep (fun _ _ h => h.asymm) (sorted_readings text), mem_readings]

/-- Of the readings of one kind, one that cuts another and begins further to the left
takes out where that begins. -/
theorem IsReading.swallows (hG : IsReading text G) (hF : IsReading text F)
    (hkind : G.kind = F.kind) (hlt : G.start < F.start) (hcut : G.Cuts F) :
    G.redacted.Holds F.start := by
  obtain ⟨a, ha, hmeets⟩ := hcut
  have hafter := ((readingsAt_spec hF).2.2.2.2.2 a ha).1
  have hstop : F.start < G.redacted.stop := by
    have := hmeets.2.1
    omega
  refine ⟨?_, hstop⟩
  by_contra hnested
  -- the other one begins in what the first is recognised by
  rw [IsReading, ← hkind] at hF
  rw [IsReading] at hG
  cases hk : G.kind with
  | assignment =>
    rw [hk, mem_readingsAt_of_lt (by decide)] at hF hG
    obtain ⟨⟨k, d⟩, hm, hform⟩ := Option.map_eq_some_iff.mp hG
    obtain ⟨⟨k', d'⟩, hm', hform'⟩ := Option.map_eq_some_iff.mp hF
    obtain ⟨hkA, hv, -, -⟩ := assignmentAt_some hm
    obtain ⟨hkA', hv', -, -⟩ := assignmentAt_some hm'
    rw [← Nat.add_sub_cancel' hlt.le, ← List.drop_drop] at hkA' hv'
    have hredacted : G.redacted.start = G.start + k := by rw [← hform]
    have hshared := anchor_shift hkA hv (by omega : F.start - G.start < k) hkA' hv'
    rw [← hform'] at ha
    rw [List.mem_singleton.mp ha] at hmeets
    have := hmeets.1
    simp only at this
    omega
  | bearer =>
    rw [hk, mem_readingsAt_of_lt (by decide)] at hF hG
    obtain ⟨⟨k, d⟩, hm, hform⟩ := Option.map_eq_some_iff.mp hG
    obtain ⟨⟨k', d'⟩, hm', -⟩ := Option.map_eq_some_iff.mp hF
    have hredacted : G.redacted.start = G.start + k := by rw [← hform]
    have hkB' := (bearerAt_some hm').1
    rw [← Nat.add_sub_cancel' hlt.le, ← List.drop_drop] at hkB'
    exact bearerAnchor_shift (bearerAt_some hm).1 (by omega) (by omega) hkB'
  | vendorToken =>
    rw [hk, mem_readingsAt_of_lt (by decide)] at hG
    obtain ⟨m, -, hform⟩ := Option.map_eq_some_iff.mp hG
    have hredacted : G.redacted.start = G.start := by rw [← hform]
    omega
  | privateKey =>
    rw [hk] at hG
    obtain ⟨n, t, l, -, -, hform⟩ := mem_readingsAt_privateKey.mp hG
    have hredacted : G.redacted.start = G.start := congrArg (·.redacted.start) hform
    omega
  | truncatedKey =>
    rw [hk] at hG
    obtain ⟨n, -, hform⟩ := mem_readingsAt_truncatedKey.mp hG
    have hredacted : G.redacted.start = G.start := congrArg (·.redacted.start) hform
    omega

end Readings

end UAgent
