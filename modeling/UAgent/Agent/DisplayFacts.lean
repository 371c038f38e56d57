/-
UAgent/Agent/DisplayFacts.lean

What a conversation's display facts are once one is recorded
(`Conversation::RecordDisplay`): the fact that is recorded is there, whole,
over what its key had; and every other one that is left is as it was.
Eviction takes facts away, and never the one just written.
-/
import UAgent.Agent.ConversationRestore

namespace UAgent

open Bytes

namespace Conversation

/-- Whether `RecordDisplay` records a fact: one that outgrows its bound is
left as it was. -/
def records (c : Conversation) (key : Bytes) (facts : Json) : Bool :=
  key ≠ [] && facts.isObject && jsonEstimatedBytes (c.mergedFacts key facts) ≤ kFactBytes

variable {c : Conversation} {key name : Bytes} {facts value : Json}

/-- `RecordDisplay` in one step. -/
theorem recordDisplay_eq (c : Conversation) (key : Bytes) (facts : Json) :
    c.recordDisplay key facts =
      if c.records key facts then
        evict key (c.putFact key (c.mergedFacts key facts)).displayFacts.length
          (c.putFact key (c.mergedFacts key facts))
      else c := by
  rw [recordDisplay, records]
  by_cases hnone : key = [] ∨ (!facts.isObject) = true
  · rw [if_pos hnone, if_neg]
    rcases hnone with rfl | hobject
    · simp
    · simp [Bool.eq_false_iff.mpr (by simpa using hobject : ¬ facts.isObject = true)]
  · rw [if_neg hnone]
    obtain ⟨hkey, hobject⟩ := not_or.mp hnone
    rw [Bool.not_eq_true, Bool.not_eq_false'] at hobject
    dsimp only
    by_cases hsize : kFactBytes < jsonEstimatedBytes (c.mergedFacts key facts)
    · rw [if_pos hsize, if_neg]
      simp [Nat.not_le.mpr hsize]
    · rw [if_neg hsize, if_pos]
      simp [hkey, hobject, Nat.not_lt.mp hsize]

/-! ### Eviction -/

/-- What is left was there. -/
theorem lookup_of_evict {rounds : Nat}
    (h : Assoc.lookup name (evict key rounds c).displayFacts = some value) :
    Assoc.lookup name c.displayFacts = some value := by
  induction rounds generalizing c with
  | zero => exact h
  | succ rounds ih =>
    rw [evict] at h
    split_ifs at h
    · rcases hvictim : c.victim key with - | ⟨victim, bytes⟩
      · rwa [hvictim] at h
      · rw [hvictim] at h
        have hdrop := ih h
        rw [dropFact, Assoc.lookup_erase] at hdrop
        split_ifs at hdrop
        exact hdrop
    · exact h

/-- The largest fact that may go is not the one just written. -/
theorem largestFact_ne {victim : Bytes × Nat} (h : c.largestFact key = some victim) :
    victim.1 ≠ key := by
  have hfold : ∀ (pick : Option (Bytes × Nat) → Bytes × Json → Option (Bytes × Nat)),
      (∀ found e, (∀ f ∈ found, f.1 ≠ key) → ∀ f ∈ pick found e, f.1 ≠ key) →
      ∀ (facts : List (Bytes × Json)) (found : Option (Bytes × Nat)),
        (∀ f ∈ found, f.1 ≠ key) → ∀ f ∈ facts.foldl pick found, f.1 ≠ key := by
    intro pick hpick facts
    induction facts with
    | nil => exact fun found hfound => hfound
    | cons e facts ih => exact fun found hfound => ih _ (hpick found e hfound)
  rw [largestFact] at h
  refine hfold _ ?_ c.displayFacts none (fun f hf => absurd hf (Option.not_mem_none f)) victim h
  intro found e hfound
  by_cases hev : evictable key e.1 = true
  · have hne : e.1 ≠ key := by
      simp only [evictable, Bool.and_eq_true, decide_eq_true_eq] at hev
      exact hev.1.1.1.1
    dsimp only
    rw [hev]
    cases found with
    | none =>
      rintro _ ⟨⟩
      exact hne
    | some old =>
      intro f hf
      simp only [Bool.not_true, Bool.false_eq_true, if_false] at hf
      split_ifs at hf <;> cases hf
      · exact hne
      · exact hfound _ rfl
  · dsimp only
    rw [Bool.eq_false_iff.mpr hev]
    exact hfound

theorem victim_ne {victim : Bytes × Nat} (h : c.victim key = some victim) : victim.1 ≠ key := by
  rw [Conversation.victim] at h
  rcases hlargest : c.largestFact key with - | ⟨name, bytes⟩
  · rw [hlargest] at h
    exact absurd h (by simp)
  · rw [hlargest] at h
    dsimp only at h
    split_ifs at h
    · obtain ⟨e, he, rfl⟩ := Option.map_eq_some_iff.mp h
      have hev := List.find?_some he
      simp only [evictable, Bool.and_eq_true, decide_eq_true_eq] at hev
      exact hev.1.1.1.1
    · cases h
      exact largestFact_ne hlargest

/-- The fact just written stays. -/
theorem lookup_evict_self (key : Bytes) (rounds : Nat) (c : Conversation) :
    Assoc.lookup key (evict key rounds c).displayFacts = Assoc.lookup key c.displayFacts := by
  induction rounds generalizing c with
  | zero => rfl
  | succ rounds ih =>
    rw [evict]
    split_ifs
    · rcases hvictim : c.victim key with - | ⟨victim, bytes⟩
      · rfl
      · show Assoc.lookup key (evict key rounds (c.dropFact victim bytes)).displayFacts = _
        rw [ih, dropFact, Assoc.lookup_erase, if_neg (victim_ne hvictim).symm]
    · rfl

/-! ### Recording -/

/-- **A fact that is recorded is there.** -/
theorem lookup_recordDisplay_self (h : c.records key facts = true) :
    Assoc.lookup key (c.recordDisplay key facts).displayFacts = some (c.mergedFacts key facts) := by
  rw [recordDisplay_eq, if_pos h, lookup_evict_self]
  exact Assoc.lookup_insert_self key _ _

/-- **Every other fact is as it was**, or gone. -/
theorem lookup_of_recordDisplay
    (h : Assoc.lookup name (c.recordDisplay key facts).displayFacts = some value) :
    (name = key ∧ c.records key facts = true ∧ value = c.mergedFacts key facts) ∨
      ((name = key → c.records key facts = false) ∧
        Assoc.lookup name c.displayFacts = some value) := by
  rw [recordDisplay_eq] at h
  split_ifs at h with hrecords
  · have hput := lookup_of_evict h
    rw [putFact, Assoc.lookup_insert] at hput
    split_ifs at hput with hname
    · exact .inl ⟨hname, hrecords, (Option.some.inj hput).symm⟩
    · exact .inr ⟨fun heq => absurd heq hname, hput⟩
  · exact .inr ⟨fun _ => Bool.eq_false_iff.mpr hrecords, h⟩

/-- Eviction and recording keep all but the facts and their sizes. -/
theorem frame_recordDisplay (c : Conversation) (key : Bytes) (facts : Json) :
    c.recordDisplay key facts =
      { c with
        displayFacts := (c.recordDisplay key facts).displayFacts
        factBytes := (c.recordDisplay key facts).factBytes
        displayBytes := (c.recordDisplay key facts).displayBytes } := by
  have hevict : ∀ (rounds : Nat) (c : Conversation), evict key rounds c =
      { c with
        displayFacts := (evict key rounds c).displayFacts
        factBytes := (evict key rounds c).factBytes
        displayBytes := (evict key rounds c).displayBytes } := by
    intro rounds
    induction rounds with
    | zero => exact fun c => rfl
    | succ rounds ih =>
      intro c
      rw [evict]
      split_ifs
      · rcases c.victim key with - | ⟨victim, bytes⟩
        · rfl
        · exact ih (c.dropFact victim bytes)
      · rfl
  rw [recordDisplay_eq]
  split_ifs
  · exact hevict _ (c.putFact key (c.mergedFacts key facts))
  · rfl

@[simp] theorem statistics_recordDisplay (c : Conversation) (key : Bytes) (facts : Json) :
    (c.recordDisplay key facts).statistics = c.statistics := by
  rw [frame_recordDisplay]

/-! ### Facts in order -/

/-- Facts by key, in the order of the keys, and so their members. -/
structure FactsOrdered (c : Conversation) : Prop where
  sorted : Assoc.Sorted c.displayFacts
  keyed : ∀ e ∈ c.displayFacts, e.2.isObject = true → e.2.Keyed

theorem keyed_mergedFacts (h : c.FactsOrdered) (hkeyed : facts.Keyed) :
    (c.mergedFacts key facts).Keyed := by
  rw [mergedFacts]
  cases hlookup : Assoc.lookup key c.displayFacts with
  | none => exact hkeyed
  | some existing =>
    dsimp only
    split_ifs with hobject
    · exact (h.keyed _ (Assoc.mem_of_lookup hlookup) hobject).update
    · exact hkeyed

/-- What a recorded fact holds: the members sent, over those there. -/
theorem get?_mergedFacts (hkeyed : facts.Keyed) (k : Bytes) :
    (c.mergedFacts key facts).get? k =
      (facts.get? k).or ((Assoc.lookup key c.displayFacts).bind (·.get? k)) := by
  rw [mergedFacts]
  cases hlookup : Assoc.lookup key c.displayFacts with
  | none => exact Option.or_none.symm
  | some existing =>
    dsimp only
    split_ifs with hobject
    · exact Json.get?_update_keyed hobject hkeyed k
    · -- a fact that is no object is replaced
      rw [Option.bind_some]
      cases existing with
      | obj fields => exact absurd rfl hobject
      | _ => exact Option.or_none.symm

theorem FactsOrdered.evict (h : c.FactsOrdered) (key : Bytes) (rounds : Nat) :
    (Conversation.evict key rounds c).FactsOrdered := by
  induction rounds generalizing c with
  | zero => exact h
  | succ rounds ih =>
    rw [Conversation.evict]
    split_ifs
    · rcases c.victim key with - | ⟨victim, bytes⟩
      · exact h
      · exact ih ⟨Assoc.sorted_erase h.sorted victim,
          fun e he => h.keyed e (Assoc.mem_erase.mp he).1⟩
    · exact h

theorem FactsOrdered.recordDisplay (h : c.FactsOrdered) (hkeyed : facts.Keyed) :
    (c.recordDisplay key facts).FactsOrdered := by
  rw [recordDisplay_eq]
  split_ifs
  · refine FactsOrdered.evict ⟨Assoc.sorted_insert h.sorted key _, ?_⟩ key _
    intro e he hobject
    rcases Assoc.eq_or_mem_of_mem_insert he with rfl | he
    · exact keyed_mergedFacts h hkeyed
    · exact h.keyed e he hobject
  · exact h

end Conversation

end UAgent
