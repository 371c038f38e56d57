/-
UAgent/Agent/ChargePlacement.lean

To which account the steps of src/agent/usage_accounting.cc charge what.

A response in the running turn is charged to it, and so are the reports of a
batch that name it.  The reports of another turn go to the first recorded
summary of that turn, when the summary can still be recorded with them
(`Placed`).  The summary of a turn that finishes takes its charges over.

Main result: `usage_accounted`.
-/
import UAgent.Agent.TurnAccounts

namespace UAgent

open Bytes

namespace UsageAccounts

/-- Of a map in order one entry at most has a key. -/
theorem flatMap_filter_key {β γ : Type*} {m : List (Int × β)} (h : Assoc.Sorted m) (k : Int)
    (f : Int → List γ) :
    (m.filter fun e => e.1 = k).flatMap (fun e => f e.1) =
      if k ∈ m.map Prod.fst then f k else [] := by
  induction m with
  | nil => rfl
  | cons e m ih =>
    obtain ⟨hfirst, hrest⟩ := List.pairwise_cons.mp h
    have ih := ih hrest
    rw [List.filter_cons, List.map_cons]
    by_cases he : e.1 = k
    · have hnone : k ∉ m.map Prod.fst := fun hmem => by
        have hlt := hfirst k hmem
        omega
      rw [if_neg hnone] at ih
      rw [if_pos (decide_eq_true he), List.flatMap_cons, ih, List.append_nil, he,
        if_pos List.mem_cons_self]
    · rw [if_neg (by simpa using he), ih]
      simp only [List.mem_cons, Ne.symm he, false_or]

section Charges

variable [DoubleSum]

/-! ### Where charges go -/

/-- Where the reports of turns that are over go, one turn after another: to the
first summary of the turn, when it can be recorded with them, and else to no
account. -/
inductive Placed (reports : List UsageReport) :
    Conversation → List Int → Conversation → List Charge → Prop
  | nil {c} : Placed reports c [] c []
  | amended {c c' turn turns charges key value usage statistics} :
      0 < turn → c.summaryOf turn = some (key, value) →
      UsageTally (usagesAt (·.turn) turn reports) usage →
      StatisticsTally (statisticsAt (some turn) reports) statistics →
      c.records key (amendedFact value usage statistics) = true →
      Placed reports (c.recordDisplay key (amendedFact value usage statistics)) turns c' charges →
      Placed reports c (turn :: turns) c' (chargesTo (some (.fact key)) turn reports ++ charges)
  | missed {c c' turn turns charges} :
      (0 < turn → ∀ key value, c.summaryOf turn = some (key, value) → ∃ usage statistics,
        UsageTally (usagesAt (·.turn) turn reports) usage ∧
          StatisticsTally (statisticsAt (some turn) reports) statistics ∧
            c.records key (amendedFact value usage statistics) = false) →
      Placed reports c turns c' charges →
      Placed reports c (turn :: turns) c' (chargesTo none turn reports ++ charges)

/-- The fact that the summary of the running turn is to be. -/
def summaryFact (a : UsageAccounts) (usage : Usage) (directTools directModels : Int)
    (rest : List (Bytes × Json)) (root stamp : Bytes) : Json :=
  Conversation.entryFacts a.conversation.nextDisplayId (summaryEntry root
    (turnSummary a.turnId usage a.turnSideStatistics directTools directModels rest)) stamp

/-- The reports that are charged when the accumulator is taken. -/
def batchReports (a : UsageAccounts) (readable : Bool) : List UsageReport :=
  a.waiting ++ if readable then a.ledger.flatMap entryReports else []

/-- **Where the charges of a step go.** -/
def Posted (a b : UsageAccounts) : UsageEvent → Prop
  | .response value _ toTurn =>
    b.charges = a.charges ++
      if toTurn = true ∧ a.current.isSome = true then
        [{ turn := a.turnId.toInt, usage := ({} : Usage).add value, account := some .running }]
      else []
  | .account readable =>
    ∃ turns statistics charges, turns.Pairwise (· < ·) ∧
      (∀ turn, turn ∈ turns ↔ (∃ r ∈ a.batchReports readable, r.turn = some turn) ∧
        ¬(a.current.isSome = true ∧ turn = a.turnId.toInt)) ∧
      Placed (a.batchReports readable) { a.conversation with statistics := statistics } turns
        b.conversation charges ∧
      b.charges = a.charges ++
        (if a.current.isSome = true then
          chargesTo (some .running) a.turnId.toInt (a.batchReports readable) else []) ++ charges
  | .finish directTools directModels rest root stamp =>
    ∀ usage, a.current = some usage → (∀ e ∈ rest, e.1 ≠ lit "background_statistics") →
      b.current = none ∧
      (a.conversation.records (displayName a.conversation.nextDisplayId)
          (a.summaryFact usage directTools directModels rest root stamp) = true →
        (∃ value, Assoc.lookup (displayName a.conversation.nextDisplayId)
            b.conversation.displayFacts = some value ∧
          factSummary value =
            turnSummary a.turnId usage a.turnSideStatistics directTools directModels rest) ∧
        onAccount (.fact (displayName a.conversation.nextDisplayId)) b.charges =
          (onAccount .running a.charges).map fun charge =>
            { charge with account := some (.fact (displayName a.conversation.nextDisplayId)) })
  | .record _ _ =>
    onAccount .running b.charges = onAccount .running a.charges ∧
      ∀ key value, Assoc.lookup key a.conversation.displayFacts = some value →
        onAccount (.fact key) b.charges = onAccount (.fact key) a.charges
  | _ => b.charges = a.charges

section Placement

variable {a : UsageAccounts} {readable : Bool} {reports : List UsageReport} {side : AccumulatedUsage}

/-- `UpdateTurnSideUsage` places the reports of a turn. -/
theorem placed_update {b : UsageAccounts} {turn : Int} {usage : Usage} {statistics : Json}
    (husage : UsageTally (usagesAt (·.turn) turn reports) usage)
    (hstatistics : StatisticsTally (statisticsAt (some turn) reports) statistics)
    {turns : List Int} {c : Conversation} {charges : List Charge}
    (h : Placed reports (b.updateTurnSideUsage turn usage statistics reports).conversation turns c
      charges) :
    Placed reports b.conversation (turn :: turns) c
      (chargesTo (b.accountOf turn usage statistics) turn reports ++ charges) := by
  rw [updateTurnSideUsage] at h
  rw [accountOf]
  by_cases hturn : turn ≤ 0
  · rw [if_pos hturn] at h ⊢
    exact .missed (fun hpos => absurd hturn (by omega)) h
  rw [if_neg hturn] at h ⊢
  -- A turn with a number: its summary is looked for.
  rcases hfound : b.conversation.summaryOf turn with - | ⟨key, value⟩
  · rw [hfound] at h
    refine .missed (fun _ key value hsome => ?_) h
    rw [hfound] at hsome
    cases hsome
  · rw [hfound] at h
    dsimp only at h ⊢
    by_cases hrecords : b.conversation.records key (amendedFact value usage statistics) = true
    · rw [if_pos hrecords]
      exact .amended (not_le.mp hturn) hfound husage hstatistics hrecords h
    · -- There is one, but it would not fit with the charges.
      rw [Conversation.recordDisplay_eq, if_neg hrecords] at h
      rw [if_neg hrecords]
      refine .missed (fun _ key' value' hsome => ?_) h
      rw [hfound] at hsome
      obtain ⟨rfl, rfl⟩ := Prod.mk.inj (Option.some.inj hsome)
      exact ⟨usage, statistics, husage, hstatistics, Bool.eq_false_iff.mpr hrecords⟩

/-- The turns of a batch are placed one after another. -/
theorem placed_foldl (hheld : HeldReports reports side) {turns : List (Int × Usage)}
    (hturns : ∀ e ∈ turns, e ∈ side.turns) (b : UsageAccounts) :
    let c := turns.foldl
      (fun b e => b.updateTurnSideUsage e.1 e.2 (side.statisticsOf e.1) reports) b
    ∃ charges, Placed reports b.conversation (turns.map Prod.fst) c.conversation charges ∧
      c.charges = b.charges ++ charges := by
  induction turns generalizing b with
  | nil => exact ⟨[], .nil, (List.append_nil _).symm⟩
  | cons e turns ih =>
    obtain ⟨charges, hplaced, hcharges⟩ := ih
      (fun e' he' => hturns e' (List.mem_cons_of_mem e he'))
      (b.updateTurnSideUsage e.1 e.2 (side.statisticsOf e.1) reports)
    refine ⟨_, placed_update (hheld.turn_tally (hturns e List.mem_cons_self))
      (hheld.turnStatistics e.1) hplaced, ?_⟩
    rw [List.foldl_cons, hcharges, ← List.append_assoc]
    rfl

/-- The turns of a batch are those its reports name. -/
theorem mem_turns (hheld : HeldReports reports side) (turn : Int) :
    turn ∈ side.turns.map Prod.fst ↔ ∃ r ∈ reports, r.turn = some turn := by
  constructor
  · intro h
    obtain ⟨e, he, rfl⟩ := List.mem_map.mp h
    exact hheld.turnsNamed e he
  · rintro ⟨r, hr, hturn⟩
    by_contra hnone
    have hfound := hheld.turns turn
    rw [Assoc.lookup_eq_none.mpr hnone] at hfound
    have hmem : r.usage ∈ usagesAt (·.turn) turn reports :=
      List.mem_map_of_mem (List.mem_filter.mpr ⟨hr, decide_eq_true hturn⟩)
    rw [show usagesAt (·.turn) turn reports = [] from hfound] at hmem
    exact List.not_mem_nil hmem

/-- A response is charged to the running turn. -/
theorem posted_response (a : UsageAccounts) (value : Json) (route : Bytes) (toTurn : Bool) :
    Posted a (a.accountModelUsage value route toTurn) (.response value route toTurn) := by
  rw [Posted, accountModelUsage]
  generalize ({} : Usage).add value = usage
  by_cases hcharged : toTurn = true ∧ a.current.isSome = true
  · simp [chargesTo, hcharged]
  · have hfalse : (toTurn && a.current.isSome) = false := by
      simpa [Bool.and_eq_true] using hcharged
    simp [chargesTo, hcharged, hfalse]

/-- A batch is charged turn by turn. -/
theorem posted_account (hheld : HeldReports (a.batchReports readable)
      (if readable then a.drainChildUsage else a).side) :
    Posted a (a.accountSideUsage readable) (.account readable) := by
  obtain ⟨d, hd⟩ : ∃ d, (if readable then a.drainChildUsage else a) = d := ⟨_, rfl⟩
  -- Draining the ledger charges nothing: it moves reports to the batch.
  have hframe : d.current = a.current ∧ d.turnId = a.turnId ∧ d.charges = a.charges ∧
      d.conversation = a.conversation ∧ d.waiting = a.batchReports readable := by
    rw [← hd, batchReports]
    split_ifs
    · exact ⟨rfl, rfl, rfl, rfl, rfl⟩
    · exact ⟨rfl, rfl, rfl, rfl, (List.append_nil _).symm⟩
  obtain ⟨hcurrent, hturn, hcharges, hconversation, hwaiting⟩ := hframe
  rw [Posted, accountSideUsage, hd]
  rw [hd, ← hwaiting] at hheld
  rw [← hwaiting, ← hcurrent, ← hturn, ← hcharges, ← hconversation]
  set others := d.side.turns.filter fun e => !d.isRunning e.1 with hothers
  -- The other turns come behind the running one, in their order.
  obtain ⟨charges, hplaced, hposted⟩ := placed_foldl hheld
    (fun e he => (List.mem_filter.mp he).1 : ∀ e ∈ others, e ∈ d.side.turns) d.chargeBatch
  rw [Totals.chargeBatch_conversation] at hplaced
  refine ⟨others.map Prod.fst, _, charges, ?_, fun turn => ?_, hplaced, ?_⟩
  · exact List.Pairwise.sublist (List.filter_sublist.map Prod.fst) hheld.turnsSorted
  · rw [← mem_turns hheld]
    simp only [hothers, List.mem_map, List.mem_filter, isRunning, Bool.not_eq_true',
      Bool.and_eq_false_iff, decide_eq_false_iff_not]
    constructor
    · rintro ⟨e, ⟨hmem, hother⟩, rfl⟩
      refine ⟨⟨e, hmem, rfl⟩, fun hrunning => ?_⟩
      rcases hother with hnone | hne
      · rw [hrunning.1] at hnone
        cases hnone
      · exact hne hrunning.2
    · rintro ⟨⟨e, hmem, rfl⟩, hother⟩
      refine ⟨e, ⟨hmem, ?_⟩, rfl⟩
      by_cases hsome : d.current.isSome = true
      · exact .inr fun heq => hother ⟨hsome, heq⟩
      · exact .inl (Bool.eq_false_iff.mpr hsome)
  · rw [hposted]
    refine congrArg (· ++ charges) ?_
    show d.charges ++ (d.side.turns.filter fun e => d.isRunning e.1).flatMap _ = _
    refine congrArg (d.charges ++ ·) ?_
    by_cases hsome : d.current.isSome = true
    · -- At most one entry of the batch is for the running turn.
      have hrunning : (fun e : Int × Usage => d.isRunning e.1) =
          fun e => decide (e.1 = d.turnId.toInt) := by
        funext e
        rw [isRunning, hsome, Bool.true_and]
      rw [if_pos hsome, hrunning, flatMap_filter_key hheld.turnsSorted d.turnId.toInt
        fun turn => chargesTo (some .running) turn d.waiting]
      split_ifs with hnamed
      · rfl
      · -- no report names the running turn
        rw [mem_turns hheld] at hnamed
        rw [chargesTo, List.filter_eq_nil_iff.mpr, List.map_nil]
        intro r hr hturn
        exact hnamed ⟨r, hr, of_decide_eq_true hturn⟩
    · have hnone : (d.side.turns.filter fun e => d.isRunning e.1) = [] := by
        rw [List.filter_eq_nil_iff]
        intro e _ hrunning
        rw [isRunning, Bool.and_eq_true] at hrunning
        exact hsome hrunning.1
      rw [hnone, if_neg hsome]
      rfl

/-- The summary of the running turn takes its charges over. -/
theorem posted_finish {usage : Usage} (hcurrent : a.current = some usage)
    (directTools directModels : Int) (rest : List (Bytes × Json)) (root stamp : Bytes) :
    Posted a (a.finishTurn usage directTools directModels rest root stamp)
      (.finish directTools directModels rest root stamp) := by
  intro usage' husage' _
  obtain rfl := Option.some.inj (hcurrent.symm.trans husage')
  refine ⟨rfl, fun hrecords => ?_⟩
  set key := displayName a.conversation.nextDisplayId
  set fact := a.summaryFact usage directTools directModels rest root stamp
  obtain ⟨hkeyed, -, hmember⟩ := summaryEntry_spec a.conversation.nextDisplayId root stamp
    (turnSummary a.turnId usage a.turnSideStatistics directTools directModels rest)
  change fact.Keyed at hkeyed
  change fact.get? (lit "summary") = some _ at hmember
  -- The summary is recorded under the next name.
  have hmint : a.conversation.mint.records key fact = true := hrecords
  refine ⟨⟨a.conversation.mint.mergedFacts key fact, ?_, ?_⟩, ?_⟩
  · rw [finishTurn, recordEntry_summary]
    exact Conversation.lookup_recordDisplay_self hmint
  · refine factSummary_of_get? ?_
    rw [Conversation.get?_mergedFacts hkeyed, hmember, Option.some_or]
  · show onAccount (.fact key) (moveRunning
      (if a.conversation.records key fact then a.forget key else a).charges
      (if a.conversation.records key fact then some (.fact key) else none)) = _
    rw [if_pos hrecords, if_pos hrecords,
      onAccount_moveRunning_self (by rw [onAccount_forget, if_pos rfl]), onAccount_forget,
      if_neg (by simp)]

/-- Other facts leave the charges of those that are there. -/
theorem posted_record (a : UsageAccounts) (key : Bytes) (facts : List (Bytes × Json)) :
    Posted a (a.recordFact key (.ofFields facts)) (.record key facts) := by
  rw [Posted, recordFact]
  cases hfound : Assoc.lookup key a.conversation.displayFacts with
  | none =>
    rw [Option.isNone_none, if_pos rfl]
    refine ⟨?_, fun name value hlookup => ?_⟩
    · show onAccount .running (a.forget key).charges = _
      rw [onAccount_forget, if_neg (by simp)]
    · have hne : name ≠ key := fun hname => by
        rw [hname, hfound] at hlookup
        cases hlookup
      show onAccount (.fact name) (a.forget key).charges = _
      rw [onAccount_forget, if_neg (by simpa using hne)]
  | some value => exact ⟨rfl, fun _ _ _ => rfl⟩

/-- **Every step posts its charges.** -/
theorem posted_step {s : UsageAccounts} (h : Totals s a) (event : UsageEvent) :
    Posted a (a.step event) event := by
  cases event with
  | response value route toTurn => exact posted_response a value route toTurn
  | spend usage => rfl
  | spendOn route usage turn statistics => rfl
  | child entry => rfl
  | account readable =>
    refine posted_account ?_
    rw [batchReports]
    split_ifs
    · exact h.drain.held
    · rw [List.append_nil]
      exact h.held
  | turn =>
    show (UsageAccounts.step a .turn).charges = a.charges
    rw [UsageAccounts.step]
    split_ifs <;> rfl
  | execute =>
    show (UsageAccounts.step a .execute).charges = a.charges
    rw [UsageAccounts.step]
    split_ifs <;> rfl
  | finish directTools directModels rest root stamp =>
    intro usage hcurrent hrest
    have hstep : a.step (.finish directTools directModels rest root stamp) =
        a.finishTurn usage directTools directModels rest root stamp := by
      rw [UsageAccounts.step, hcurrent]
      exact if_pos (List.all_eq_true.mpr fun e he => decide_eq_true (hrest e he))
    rw [hstep]
    exact posted_finish hcurrent directTools directModels rest root stamp usage hcurrent hrest
  | record key facts =>
    rw [UsageAccounts.step]
    split_ifs
    · exact posted_record a key facts
    · exact ⟨rfl, fun _ _ _ => rfl⟩
  | count delta => rfl

end Placement

theorem run_concat (s : UsageAccounts) (events : List UsageEvent) (event : UsageEvent) :
    s.run (events ++ [event]) = (s.run events).step event := by
  rw [run, List.foldl_append]
  rfl

/-- **Usage is accounted for once.**  In every run from a session that was
opened, however the ways reports take and the turns interleave, the totals are
the reports, the account of every turn is what was charged to it, and every
report that names a turn is charged to it once, or waits; after
`AccountSideUsage` none does.  What is charged goes to the running turn when it
is that one, and else to the recorded summary of its turn (`Posted`).  The
statistics of a child stand on one report. -/
theorem usage_accounted [LawfulDoubleSum] {s : UsageAccounts} (h : s.Opened)
    (events : List UsageEvent) :
    Accounted s (s.run events) ∧
      (∀ event, Posted (s.run events) ((s.run events).step event) event) ∧
      Settled s (s.run (events ++ [.account true])) ∧
      ∀ entry usage, entry.get? (lit "usage") = some usage →
        ∃ n, (entryReports entry).filterMap (·.statistics) =
          sideStatistics (jsonValue entry (lit "statistics") (.obj [])) ::
            List.replicate n (.obj []) := by
  have haccounted := Accounted.run h events
  refine ⟨haccounted, fun event => posted_step haccounted.totals event, ?_, entryReports_statistics⟩
  have hlast := Accounted.run h (events ++ [.account true])
  have hstep : s.run (events ++ [.account true]) = (s.run events).accountSideUsage true :=
    run_concat s events _
  have hframe := (foldl_update (s.run events).drainChildUsage.waiting
    (s.run events).drainChildUsage.side
    ((s.run events).drainChildUsage.side.turns.filter fun e =>
      !(s.run events).drainChildUsage.isRunning e.1) (s.run events).drainChildUsage.chargeBatch).1
  refine hlast.totals.settled ?_ ?_
  · rw [hstep]
    exact congrArg UsageAccounts.waiting hframe
  · rw [hstep]
    exact congrArg UsageAccounts.ledger hframe

end Charges

/-! #### A child that reports in its turn and after it -/

/-- A child with two routes. -/
def twoRoutes : Json :=
  .ofFields [(lit "usage", .ofFields [(lit "input", .uint 7)]),
    (lit "routes", .ofFields [(lit "a", .ofFields [(lit "input", .uint 4)]),
      (lit "b", .ofFields [(lit "input", .uint 3)])]),
    (lit "parent_turn", .uint 1), (lit "statistics", .ofFields [(lit "tool_calls", .uint 2)])]

/-- A turn, its child's line, and another line once it is over. -/
def childOfTurn : List UsageEvent :=
  [.turn, .execute, .response (.ofFields [(lit "prompt_tokens", .uint 3)]) (lit "main") true,
    .child twoRoutes, .account true, .finish 0 1 [] [] [], .child twoRoutes]

theorem lawful_zeroSum : @LawfulDoubleSum zeroSum :=
  @LawfulDoubleSum.mk zeroSum fun {a b} ha hb => by
    show finiteNonnegative (if a.bits = 0 then b else a) = true
    split_ifs
    · exact hb
    · exact ha

theorem opened_fresh : Opened {} where
  ordered := ⟨List.Pairwise.nil, fun _ he => absurd he List.not_mem_nil⟩
  opened := rfl
  idle := ⟨rfl, rfl, rfl⟩
  side := rfl
  ledger := rfl
  records := ⟨rfl, rfl, rfl, rfl, rfl, rfl⟩

/-- The accounts of a fresh session after some events. -/
def runAccounts (events : List UsageEvent) : UsageAccounts := @run zeroSum {} events

theorem usage_accounted_childOfTurn :
    (runAccounts (childOfTurn ++ [.account true])).sessionUsage.input = 17 ∧
      (runAccounts (childOfTurn ++ [.account true])).charges.map (fun charge =>
        (charge.usage.input, charge.account)) =
          [3, 4, 3, 4, 3].map (fun n => (n, some (.fact (lit "m-1")))) ∧
      @Accounted zeroSum {} (runAccounts childOfTurn) ∧
      @Posted zeroSum (runAccounts childOfTurn) (runAccounts (childOfTurn ++ [.account true]))
        (.account true) ∧
      Settled {} (runAccounts (childOfTurn ++ [.account true])) := by
  let _ := zeroSum
  have hlawful := lawful_zeroSum
  obtain ⟨haccounted, hposted, hsettled, -⟩ := usage_accounted opened_fresh childOfTurn
  have hlast : runAccounts (childOfTurn ++ [.account true]) =
      (runAccounts childOfTurn).step (.account true) := run_concat {} childOfTurn _
  refine ⟨?_, ?_, haccounted, hlast ▸ hposted (.account true), hsettled⟩
  · decide +kernel
  · decide +kernel

/-- The line a child that had spent nothing before writes: its totals
(`Application::ReportUsage`). -/
def firstLine [DoubleSum] (child : UsageAccounts) (route : Bytes) (parentTurn : Int64) : Json :=
  .ofFields [(lit "route", .str route),
    (lit "routes", .ofFields ((child.routeUsage.filter fun e => hasUsage e.2).map fun e =>
      (e.1, usageJson e.2))),
    (lit "usage", usageJson child.sessionUsage),
    (lit "statistics", child.conversation.statistics), (lit "parent_turn", .int parentTurn)]

/-- A child whose own child's line names no route. -/
def routelessChild : UsageAccounts :=
  runAccounts [.child (.ofFields [(lit "input", .uint 5)]),
    .response (.ofFields [(lit "prompt_tokens", .uint 3)]) (lit "a") false, .account true]

/-- **A child's whole is more than its routes**, and the session counts the
routes. -/
theorem whole_uncounted :
    routelessChild.sessionUsage.input = 8 ∧
      jsonValueInt64 (jsonValue (@firstLine zeroSum routelessChild (lit "a") 0) (lit "usage")
        (.obj [])) (lit "input") 0 = 8 ∧
      (runAccounts [.child (@firstLine zeroSum routelessChild (lit "a") 0),
        .account true]).waiting = [] ∧
      (runAccounts [.child (@firstLine zeroSum routelessChild (lit "a") 0),
        .account true]).sessionUsage.input = 3 := by
  decide +kernel

end UsageAccounts

end UAgent
