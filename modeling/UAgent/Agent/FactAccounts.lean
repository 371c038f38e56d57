/-
UAgent/Agent/FactAccounts.lean

The budget of a conversation's display facts (`Conversation::RecordDisplay`,
src/agent/conversation.cc).  A fact that is written may push others out: the
largest first, or the one with the first key when only tiny facts are left
and the bytes are no trouble.  The fact just written never goes, nor do four
that say what the conversation is.

`FactsAccounted` is what holds of the two maps and the total at any time.
The total starts where the last reset or restore put it: at zero, or 16 bytes
above the sizes of the restored facts, since `Restore` measures the object
that holds them.  Main result: `recordDisplay_accounts`.
-/
import UAgent.Agent.DisplayFacts

namespace UAgent

open Bytes

namespace Conversation

variable {c : Conversation} {key name : Bytes} {facts value : Json}

/-! ### The accounts -/

/-- What all facts count. -/
def accountedBytes (facts : List (Bytes × Json)) : Nat := (facts.map fun e => factSize e.1 e.2).sum

theorem accountedBytes_perm {facts facts' : List (Bytes × Json)} (h : facts.Perm facts') :
    accountedBytes facts = accountedBytes facts' := (h.map _).sum_eq

theorem accountedBytes_cons (e : Bytes × Json) (facts : List (Bytes × Json)) :
    accountedBytes (e :: facts) = factSize e.1 e.2 + accountedBytes facts := List.sum_cons

/-- The facts are in the order of their keys, each is accounted with its size
and the total is theirs, counted from `base`. -/
structure FactsAccounted (c : Conversation) (base : Nat) : Prop where
  sorted : Assoc.Sorted c.displayFacts
  sizes : c.factBytes = c.displayFacts.map fun e => (e.1, factSize e.1 e.2)
  total : c.displayBytes = base + accountedBytes c.displayFacts

namespace FactsAccounted

variable {base : Nat}

theorem storedBytes_eq (h : c.FactsAccounted base) (hmem : (name, value) ∈ c.displayFacts) :
    c.storedBytes name value = factSize name value := by
  have hsized : Assoc.lookup name c.factBytes = some (factSize name value) := by
    have hsorted : Assoc.Sorted c.factBytes := by
      rw [Assoc.Sorted, h.sizes, List.map_map]
      exact h.sorted
    apply Assoc.lookup_of_mem hsorted
    rw [h.sizes]
    exact List.mem_map_of_mem hmem
  rw [storedBytes, hsized]
  rfl

/-- A fact is erased with its size. -/
theorem dropFact (h : c.FactsAccounted base) (hmem : (name, value) ∈ c.displayFacts) :
    (c.dropFact name (factSize name value)).FactsAccounted base := by
  have htotal : accountedBytes c.displayFacts =
      factSize name value + accountedBytes (Assoc.erase name c.displayFacts) := by
    rw [accountedBytes_perm (Assoc.erase_perm h.sorted hmem), accountedBytes_cons]
  refine ⟨Assoc.sorted_erase h.sorted name, ?_, ?_⟩
  · show Assoc.erase name c.factBytes = _
    rw [h.sizes]
    exact (Assoc.map_erase factSize name c.displayFacts).symm
  · show c.displayBytes - min c.displayBytes (factSize name value) = _
    have := h.total
    show _ = base + accountedBytes (Assoc.erase name c.displayFacts)
    omega

/-- A fact is written over what its key had. -/
theorem putFact (h : c.FactsAccounted base)
    (hfits : base + accountedBytes c.displayFacts + factSize key facts ≤ sizeMax) :
    (c.putFact key facts).FactsAccounted base := by
  have hrest : accountedBytes c.displayFacts =
      c.replacedBytes key + accountedBytes (Assoc.erase key c.displayFacts) := by
    rw [replacedBytes]
    rcases hlookup : Assoc.lookup key c.displayFacts with - | existing
    · rw [Assoc.erase_eq_self (Assoc.lookup_eq_none.mp hlookup)]
      exact (Nat.zero_add _).symm
    · rw [accountedBytes_perm (Assoc.erase_perm h.sorted (Assoc.mem_of_lookup hlookup)),
        accountedBytes_cons]
  refine ⟨Assoc.sorted_insert h.sorted key facts, ?_, ?_⟩
  · show Assoc.insert key (factSize key facts) c.factBytes = _
    rw [h.sizes]
    exact (Assoc.map_insert factSize key facts c.displayFacts).symm
  · have hnew : accountedBytes (Assoc.insert key facts c.displayFacts) =
        factSize key facts + accountedBytes (Assoc.erase key c.displayFacts) := by
      rw [accountedBytes_perm (Assoc.insert_perm_erase h.sorted facts), accountedBytes_cons]
    show saturatingAdd (c.displayBytes - min c.displayBytes (c.replacedBytes key))
      (factSize key facts) = base + accountedBytes (Assoc.insert key facts c.displayFacts)
    have htotal := h.total
    rw [saturatingAdd_of_le (by omega), hnew]
    omega

end FactsAccounted

/-! ### The fact that goes -/

/-- A search that passes over what may not go, and else takes what it is at
or keeps what it has. -/
theorem foldl_pick {α γ : Type*} {pick : Option γ → α → Option γ} (may : α → Prop)
    (good : α → γ → Prop) (hskip : ∀ found a, ¬ may a → pick found a = found)
    (htake : ∀ found a, may a → ∃ g, pick found a = some g ∧ (found = some g ∨ good a g))
    (l : List α) :
    (l.foldl pick none = none → ∀ a ∈ l, ¬ may a) ∧
      ∀ g, l.foldl pick none = some g → ∃ a ∈ l, may a ∧ good a g := by
  induction l using List.reverseRecOn with
  | nil => exact ⟨fun _ a ha => absurd ha List.not_mem_nil, fun g h => absurd h (by simp)⟩
  | append_singleton l a ih =>
    rw [List.foldl_append, List.foldl_cons, List.foldl_nil]
    by_cases hmay : may a
    · obtain ⟨g, hpick, hg⟩ := htake (l.foldl pick none) a hmay
      rw [hpick]
      refine ⟨fun h => absurd h (by simp), fun g' h => ?_⟩
      rw [Option.some_inj] at h
      subst h
      rcases hg with hfound | hgood
      · obtain ⟨a', ha', hmay', hgood'⟩ := ih.2 g hfound
        exact ⟨a', List.mem_append_left _ ha', hmay', hgood'⟩
      · exact ⟨a, List.mem_append_right _ (List.mem_singleton_self a), hmay, hgood⟩
    · rw [hskip _ a hmay]
      refine ⟨fun h a' ha' => ?_, fun g h => ?_⟩
      · rcases List.mem_append.mp ha' with ha' | ha'
        · exact ih.1 h a' ha'
        · exact List.mem_singleton.mp ha' ▸ hmay
      · obtain ⟨a', ha', hfound⟩ := ih.2 g h
        exact ⟨a', List.mem_append_left _ ha', hfound⟩

/-- The largest fact is one that may go, with its size; there is none only
when no fact may go. -/
theorem largestFact_spec (c : Conversation) (key : Bytes) :
    (c.largestFact key = none → ∀ e ∈ c.displayFacts, ¬ evictable key e.1 = true) ∧
      ∀ victim, c.largestFact key = some victim →
        ∃ e ∈ c.displayFacts, evictable key e.1 = true ∧
          victim = (e.1, c.storedBytes e.1 e.2) := by
  refine foldl_pick (fun e => evictable key e.1 = true)
    (fun e victim => victim = (e.1, c.storedBytes e.1 e.2)) ?_ ?_ c.displayFacts
  · intro found e hkept
    dsimp only
    rw [Bool.eq_false_iff.mpr hkept]
    rfl
  · intro found e hmay
    dsimp only
    rw [hmay]
    rcases found with - | ⟨name, bytes⟩
    · exact ⟨_, rfl, .inr rfl⟩
    · by_cases hlarger : bytes < c.storedBytes e.1 e.2 ∨ (c.storedBytes e.1 e.2 = bytes ∧ e.1 < name)
      · exact ⟨_, if_pos hlarger, .inr rfl⟩
      · exact ⟨_, if_neg hlarger, .inl rfl⟩

/-- So is the fact that goes. -/
theorem victim_spec (c : Conversation) (key : Bytes) :
    (c.victim key = none → ∀ e ∈ c.displayFacts, ¬ evictable key e.1 = true) ∧
      ∀ victim, c.victim key = some victim →
        ∃ e ∈ c.displayFacts, evictable key e.1 = true ∧
          victim = (e.1, c.storedBytes e.1 e.2) := by
  obtain ⟨hnone, hsome⟩ := c.largestFact_spec key
  rw [victim]
  rcases hlargest : c.largestFact key with - | ⟨name, bytes⟩
  · exact ⟨fun _ => hnone hlargest, fun victim h => absurd h (by simp)⟩
  · dsimp only
    split_ifs with htiny
    · refine ⟨fun h e he => ?_, fun victim h => ?_⟩
      · rw [Option.map_eq_none_iff, List.find?_eq_none] at h
        exact h e he
      · obtain ⟨e, he, rfl⟩ := Option.map_eq_some_iff.mp h
        have hmay := List.find?_some he
        exact ⟨e, List.mem_of_find?_eq_some he, hmay, rfl⟩
    · refine ⟨fun h => absurd h (by simp), fun victim h => ?_⟩
      rw [Option.some_inj] at h
      exact hsome victim (h ▸ hlargest)

/-! ### The loop -/

/-- The loop's condition. -/
def OverBudget (c : Conversation) : Prop :=
  kFactCount < c.displayFacts.length ∨ kDisplayBytes < c.displayBytes

/-- What the eviction of facts comes to, however often it goes round: the
accounts are kept, a fact that may not go stays, what is left was there, and
after as many rounds as there are facts the loop has ended. -/
theorem evict_spec (key : Bytes) (base rounds : Nat) : ∀ {c : Conversation},
    c.FactsAccounted base →
    (evict key rounds c).FactsAccounted base ∧
      (∀ name, evictable key name = false →
        Assoc.lookup name (evict key rounds c).displayFacts = Assoc.lookup name c.displayFacts) ∧
      (c.displayFacts.length ≤ rounds →
        (evict key rounds c).OverBudget →
        ∀ e ∈ (evict key rounds c).displayFacts, evictable key e.1 = false) := by
  induction rounds with
  | zero =>
    intro c h
    refine ⟨h, fun name _ => rfl, fun hlength _ e he => ?_⟩
    have hnone : c.displayFacts = [] := List.length_eq_zero_iff.mp (Nat.le_zero.mp hlength)
    exact absurd (hnone ▸ he : e ∈ []) List.not_mem_nil
  | succ rounds ih =>
    intro c h
    rw [evict]
    split_ifs with hover
    · obtain ⟨hnone, hsome⟩ := c.victim_spec key
      rcases hvictim : c.victim key with - | ⟨name, bytes⟩
      · exact ⟨h, fun _ _ => rfl, fun _ _ e he => Bool.eq_false_iff.mpr (hnone hvictim e he)⟩
      · obtain ⟨⟨name', value⟩, hmem, hmay, heq⟩ := hsome _ hvictim
        obtain ⟨rfl, rfl⟩ := Prod.mk.inj heq
        rw [h.storedBytes_eq hmem]
        obtain ⟨hkept, hstays, hends⟩ := ih (h.dropFact hmem)
        refine ⟨hkept, fun other hother => ?_, fun hlength => hends ?_⟩
        · rw [hstays other hother]
          show Assoc.lookup other (Assoc.erase name c.displayFacts) = _
          rw [Assoc.lookup_erase, if_neg]
          rintro rfl
          rw [hmay] at hother
          exact absurd hother (by simp)
        · have hperm := (Assoc.erase_perm h.sorted hmem).length_eq
          rw [List.length_cons] at hperm
          show (Assoc.erase name c.displayFacts).length ≤ rounds
          omega
    · exact ⟨h, fun _ _ => rfl, fun _ habove => absurd habove hover⟩

/-! ### Recording -/

/-- A fact within its bound is accounted exactly. -/
theorem accountedBytes_put (h : c.FactsAccounted base) (hrecords : c.records key facts = true)
    (hfits : base + accountedBytes c.displayFacts + kFactBytes + key.length ≤ sizeMax) :
    (c.putFact key (c.mergedFacts key facts)).FactsAccounted base := by
  apply h.putFact
  simp only [records, Bool.and_eq_true, decide_eq_true_eq] at hrecords
  have hsize : factSize key (c.mergedFacts key facts) ≤
      jsonEstimatedBytes (c.mergedFacts key facts) + key.length := saturatingAdd_le _ _
  omega

/-- What holds once a fact was recorded. -/
structure Recorded (c : Conversation) (base : Nat) (key : Bytes) (facts : Json)
    (after : Conversation) : Prop where
  /-- The fact is there, over what its key had. -/
  written : Assoc.lookup key after.displayFacts = some (c.mergedFacts key facts)
  /-- What the conversation is rather than shows stays. -/
  protected_ : ∀ name ∈ [lit "session-settings", lit "todo", lit "fork-origin", lit "side-origin"],
    name ≠ key → Assoc.lookup name after.displayFacts = Assoc.lookup name c.displayFacts
  accounts : after.FactsAccounted base
  /-- The loop has ended: to go on would change nothing. -/
  ended : ∀ more, evict key more after = after
  /-- The bounds hold unless nothing may go any more. -/
  bounded : (∃ e ∈ after.displayFacts, evictable key e.1 = true) →
    after.displayFacts.length ≤ kFactCount ∧ after.displayBytes ≤ kDisplayBytes

theorem recorded_recordDisplay {base : Nat} (h : c.FactsAccounted base)
    (hrecords : c.records key facts = true)
    (hfits : base + accountedBytes c.displayFacts + kFactBytes + key.length ≤ sizeMax) :
    Recorded c base key facts (c.recordDisplay key facts) := by
  have hput := accountedBytes_put h hrecords hfits
  obtain ⟨hkept, hstays, hends⟩ := evict_spec key base
    (c.putFact key (c.mergedFacts key facts)).displayFacts.length hput
  rw [recordDisplay_eq, if_pos hrecords]
  have hbounded : (∃ e ∈ (evict key (c.putFact key (c.mergedFacts key facts)).displayFacts.length
        (c.putFact key (c.mergedFacts key facts))).displayFacts, evictable key e.1 = true) →
      ¬ (evict key (c.putFact key (c.mergedFacts key facts)).displayFacts.length
        (c.putFact key (c.mergedFacts key facts))).OverBudget := by
    rintro ⟨e, he, hmay⟩ hover
    rw [hends le_rfl hover e he] at hmay
    exact absurd hmay (by simp)
  refine ⟨?_, ?_, hkept, ?_, ?_⟩
  · rw [lookup_evict_self]
    exact Assoc.lookup_insert_self _ _ _
  · intro name hname hne
    rw [hstays name]
    · exact Assoc.lookup_insert_ne hne _ _
    · simp only [List.mem_cons, List.not_mem_nil, or_false] at hname
      rcases hname with rfl | rfl | rfl | rfl <;> simp [evictable]
  · intro more
    cases more with
    | zero => rfl
    | succ more =>
      rw [evict]
      split_ifs with hover
      · rcases hvictim : victim _ key with - | found
        · rfl
        · obtain ⟨e, he, hmay, -⟩ := (victim_spec _ key).2 found hvictim
          exact absurd hover (hbounded ⟨e, he, hmay⟩)
      · rfl
  · intro hmay
    have hover := hbounded hmay
    rw [OverBudget, not_or, not_lt, not_lt] at hover
    exact hover

/-! ### Runs -/

/-- A fact under the key fits: what all facts take stays within a `size_t`. -/
def Roomy (c : Conversation) (key : Bytes) : Prop :=
  16 + accountedBytes c.displayFacts + kFactBytes + key.length ≤ sizeMax

instance (c : Conversation) (key : Bytes) : Decidable (c.Roomy key) := Nat.decLe _ _

/-- What a step is promised: the facts fit the address space, and a JSON
object holds its members in the order of their keys. -/
def FactsFit (c : Conversation) : ConversationStep → Prop
  | .recordDisplay key _ => c.Roomy key
  | .push .. | .recordEntry .. => c.Roomy (displayName c.nextDisplayId)
  | .pushWithDisplayId _ _ id _ => c.Roomy (displayName id)
  | .restore _ _ _ _ display =>
    ∀ facts, jsonObject display (lit "facts") = some (.obj facts) → Assoc.Sorted facts
  | _ => True

/-- The accounts, counted from nothing since a reset and from the size of the
empty object since a restore. -/
def FactsKept (c : Conversation) : Prop := ∃ base, (base = 0 ∨ base = 16) ∧ c.FactsAccounted base

theorem FactsKept.congr {c' : Conversation} (h : c.FactsKept)
    (hfacts : c'.displayFacts = c.displayFacts) (hsizes : c'.factBytes = c.factBytes)
    (hbytes : c'.displayBytes = c.displayBytes) : c'.FactsKept := by
  obtain ⟨base, hbase, hkept⟩ := h
  exact ⟨base, hbase, hfacts ▸ hkept.sorted, by rw [hsizes, hfacts, hkept.sizes],
    by rw [hbytes, hfacts, hkept.total]⟩

theorem FactsKept.recordDisplay (h : c.FactsKept) (facts : Json) (hroomy : c.Roomy key) :
    (c.recordDisplay key facts).FactsKept := by
  obtain ⟨base, hbase, hkept⟩ := h
  by_cases hrecords : c.records key facts = true
  · have hfits : base + accountedBytes c.displayFacts + kFactBytes + key.length ≤ sizeMax := by
      rw [Roomy] at hroomy
      omega
    exact ⟨base, hbase, (recorded_recordDisplay hkept hrecords hfits).accounts⟩
  · rw [recordDisplay_eq, if_neg hrecords]
    exact ⟨base, hbase, hkept⟩

theorem FactsKept.pushWithDisplayId (h : c.FactsKept) (message : Json) (kind : MessageKind)
    {id : UInt64} (stamp : Bytes) (hroomy : c.Roomy (displayName id)) :
    (c.pushWithDisplayId message kind id stamp).FactsKept := by
  have hrow : (c.appendRow ⟨normalizeRole message kind, kind, id⟩).FactsKept :=
    h.congr rfl rfl rfl
  rw [Conversation.pushWithDisplayId]
  split_ifs
  · exact hrow.recordDisplay _ hroomy
  · exact hrow

theorem FactsKept.set (h : c.FactsKept) (index : Nat) (message : Json) (kind : MessageKind) :
    (c.set index message kind).FactsKept := by
  rw [Conversation.set]
  rcases c.rows[index]? with - | row
  · exact h
  · dsimp only
    split_ifs
    · exact h
    · exact h.congr rfl rfl rfl

theorem FactsKept.erase (h : c.FactsKept) (first last : Nat) : (c.erase first last).FactsKept := by
  rw [Conversation.erase]
  split_ifs
  · exact h
  · exact h.congr rfl rfl rfl

theorem FactsKept.archiveRange [DoubleText] (h : c.FactsKept) (reason : Bytes) (first last : Nat)
    (turn : Int64) (cap : Int) : (c.archiveRange reason first last turn cap).1.FactsKept := by
  rw [Conversation.archiveRange]
  split_ifs
  · exact h
  · rw [addArchiveSegment]
    split_ifs
    · exact h.congr rfl rfl rfl
    · exact h.congr rfl rfl rfl

/-- The estimate of an object within the budget is the sizes of its members
and its own. -/
theorem jsonEstimatedBytes_obj {facts : List (Bytes × Json)}
    (h : jsonEstimatedBytes (.obj facts) ≤ kDisplayBytes) :
    jsonEstimatedBytes (.obj facts) = 16 + accountedBytes facts := by
  have hmax : kDisplayBytes < sizeMax := by decide
  have hle : ∀ bound, bound < sizeMax →
      (jsonEstimatedBytes (.obj facts) ≤ bound ↔ 16 + accountedBytes facts ≤ bound) := by
    intro bound hbound
    rw [jsonEstimatedBytes]
    exact estimatedFields_le_iff facts hbound (by decide)
  have hupper := (hle _ (h.trans_lt hmax)).mp le_rfl
  exact le_antisymm ((hle _ (hupper.trans_lt (h.trans_lt hmax))).mpr le_rfl) hupper

/-- A restored conversation accounts for the object of its facts as well. -/
theorem factsKept_restore [DoubleText] {messages archive display : Json}
    {kinds : List MessageKind} {dropped : Int}
    (h : restore messages kinds archive dropped display = some c)
    (hsorted : ∀ facts, jsonObject display (lit "facts") = some (.obj facts) → Assoc.Sorted facts) :
    c.FactsKept := by
  unfold restore at h
  split at h
  · split_ifs at h
    obtain ⟨⟨ids, facts, next⟩, hdisplay, rfl⟩ := Option.map_eq_some_iff.mp h
    have hfacts : Assoc.Sorted facts ∧ jsonEstimatedBytes (.obj facts) ≤ kDisplayBytes := by
      rw [restoreDisplay] at hdisplay
      split_ifs at hdisplay
      · rw [Option.some_inj, Prod.mk.injEq, Prod.mk.injEq] at hdisplay
        obtain ⟨-, rfl, -⟩ := hdisplay
        exact ⟨List.Pairwise.nil, by decide⟩
      · split at hdisplay
        · rename_i hobject
          dsimp only at hdisplay
          split_ifs at hdisplay with hbad
          obtain ⟨found, -, hfound⟩ := Option.map_eq_some_iff.mp hdisplay
          rw [Prod.mk.injEq, Prod.mk.injEq] at hfound
          obtain ⟨-, rfl, -⟩ := hfound
          rw [not_or, not_or, not_lt] at hbad
          exact ⟨hsorted _ hobject, hbad.2.1⟩
        · exact absurd hdisplay (by simp)
    exact ⟨16, .inr rfl, hfacts.1, rfl, jsonEstimatedBytes_obj hfacts.2⟩
  · exact absurd h (by simp)

section Steps

variable [DoubleText] [DoubleSum]

theorem factsKept_step (c : Conversation) (step : ConversationStep) (h : c.FactsKept)
    (hfit : c.FactsFit step) : (c.step step).FactsKept := by
  cases step with
  | reset baseline => exact ⟨0, .inl rfl, List.Pairwise.nil, rfl, rfl⟩
  | restore messages kinds archive dropped display =>
    show ((restore messages kinds archive dropped display).getD c).FactsKept
    rcases hrestore : restore messages kinds archive dropped display with - | c'
    · exact h
    · exact factsKept_restore hrestore hfit
  | resetHistory | addStatistics | pruneAttachments => exact h.congr rfl rfl rfl
  | refreshBaseline system =>
    show (c.refreshBaseline system).FactsKept
    rw [refreshBaseline]
    split_ifs
    · exact h.congr rfl rfl rfl
    · exact h.set _ _ _
  | push message kind stamp =>
    have hmint : c.mint.FactsKept := h.congr rfl rfl rfl
    exact hmint.pushWithDisplayId message kind stamp hfit
  | pushWithDisplayId message kind id stamp => exact h.pushWithDisplayId message kind stamp hfit
  | set index message kind => exact h.set _ _ _
  | erase first last => exact h.erase _ _
  | truncateBeforeUserTurn turn =>
    show (c.truncateBeforeUserTurn turn).1.FactsKept
    rw [truncateBeforeUserTurn]
    split_ifs
    · exact h
    · split
      · exact h.erase _ _
      · exact h
  | recordDisplay key facts => exact h.recordDisplay facts hfit
  | recordEntry facts stamp =>
    have hmint : c.mint.FactsKept := h.congr rfl rfl rfl
    show (c.recordEntry facts stamp).1.FactsKept
    rw [recordEntry]
    dsimp only
    split
    · exact hmint.recordDisplay _ hfit
    · have hcounted : (c.mint.addStatistics (.ofFields [(lit "incoming", .int 1)])).FactsKept :=
        hmint.congr rfl rfl rfl
      exact hcounted.recordDisplay _ hfit
  | recordAnnouncedDeliveries id values =>
    show (c.recordAnnouncedDeliveries id values).FactsKept
    rw [recordAnnouncedDeliveries]
    split_ifs
    · exact h
    · split <;> exact h.congr rfl rfl rfl
  | archiveRange reason first last turn cap => exact h.archiveRange _ _ _ _ _
  | archiveTurn turnStart turn cap =>
    show (c.archiveTurn turnStart turn cap).FactsKept
    rw [archiveTurn]
    split_ifs
    · exact h
    · exact h.archiveRange _ _ _ _ _
  | archiveAll reason baselineSize turn cap => exact h.archiveRange _ _ _ _ _
  | pruneOldToolResults protectChars minimum retained =>
    show (c.pruneOldToolResults protectChars minimum retained).1.FactsKept
    rw [pruneOldToolResults]
    dsimp only
    split_ifs
    · exact h
    · exact h
    · exact h.congr rfl rfl rfl

/-- **Recording a fact.**  In a conversation that any steps led to, a fact
that is stored is there afterwards, and so are the four that never go; both
maps and the total account for exactly the facts there are; the loop has
ended; and the bounds hold unless nothing may go any more. -/
theorem recordDisplay_accounts (hrun : Run step FactsFit {} c) (hroomy : c.Roomy key)
    (hrecords : c.records key facts = true) :
    ∃ base, (base = 0 ∨ base = 16) ∧ Recorded c base key facts (c.recordDisplay key facts) := by
  have hfresh : FactsKept {} := ⟨0, .inl rfl, List.Pairwise.nil, rfl, rfl⟩
  obtain ⟨base, hbase, hkept⟩ := hrun.invariant hfresh factsKept_step
  refine ⟨base, hbase, recorded_recordDisplay hkept hrecords ?_⟩
  rw [Roomy] at hroomy
  omega

end Steps

/-- What a call of a tool shows. -/
def callFacts : Json := .ofFields [(lit "name", .str (lit "read_file"))]

theorem recordDisplay_accounts_promptAndAnswer :
    ∃ base, (base = 0 ∨ base = 16) ∧
      Recorded (promptAndAnswer.foldl (@step Json.bitsText zeroSum) {}) base (lit "t-1") callFacts
        ((promptAndAnswer.foldl (@step Json.bitsText zeroSum) {}).recordDisplay (lit "t-1")
          callFacts) := by
  let _ := Json.bitsText
  let _ := zeroSum
  refine recordDisplay_accounts (.of_allOk ⟨trivial, ?_, ?_, trivial⟩) (by decide) (by decide)
  · show Roomy _ (displayName _)
    decide
  · show Roomy _ (displayName _)
    decide

end Conversation

end UAgent
