/-
UAgent/Agent/UsageAccounting.lean

What the model and delegated children spent, charged to the session, its
routes and the turn that caused it (src/agent/usage_accounting.cc,
include/core/usage.h).

A report reaches the accounts on one of three ways.  A response of the
conversation's own is charged at once (`accountModelUsage`); side routes, such
as titles and searches, are added to an accumulator from any thread; and
children write lines to a ledger file, which is read into the accumulator.
`accountSideUsage` takes the accumulator as one batch and charges it.

The route a response is charged to, and a ledger's lines as they were parsed,
come with the steps; a line that is no JSON is `null`.  Beside the accounts
stand the reports they were given: all that were `reported`, and of these the
`waiting`, the `counted` and the `uncounted`, in which no usage was found; and
the `charges` made to turns, each with the account it went to.

Here the totals are shown to be the reports (`Totals`); the accounts of turns
follow in UAgent.Agent.TurnAccounts.
-/
import UAgent.Agent.DisplayFacts
import UAgent.Agent.TurnNumbers
import UAgent.Core.UsageTally

namespace UAgent

open Bytes

/-! ### Reports -/

/-- One call of `UsageAccumulator::Add`.  Without a route it names no turn and
has no statistics. -/
structure UsageReport where
  usage : Usage
  route : Option Bytes := none
  turn : Option Int := none
  statistics : Option Json := none
deriving DecidableEq

/-- The turn `Add` is given, if it is one. -/
def sideTurn (turn : Int) : Option Int := if 0 < turn then some turn else none

/-- `Add` for a route. -/
def UsageReport.ofRoute (route : Bytes) (usage : Usage) (turn : Int) (statistics : Json) :
    UsageReport :=
  { usage := usage, route := some route, turn := sideTurn turn, statistics := some statistics }

section Reports

variable [DoubleSum]

/-- `SideStatistics`: what is shown of other agents' work. -/
def sideStatistics (statistics : Json) : Json :=
  let flat := flattenNumericStatistics (lit "side_") statistics
  ["recorded_turns", "tool_calls", "model_calls", "duration_ms"].foldl (fun shown key =>
    match flat.get? (lit key) with
    | some value => shown.set (lit key) value
    | none => shown) (.obj [])

/-- What `DrainChildUsage` adds for a line of the ledger.  Statistics describe
the whole child, and stand on its first record. -/
def entryReports (entry : Json) : List UsageReport :=
  match entry.get? (lit "usage") with
  | none => [{ usage := usageFromJson entry }]
  | some usage =>
    let parentTurn := jsonValueInt64 entry (lit "parent_turn") 0
    let statistics := sideStatistics (jsonValue entry (lit "statistics") (.obj []))
    match jsonObject entry (lit "routes") with
    | some (.obj ((route, value) :: routes)) =>
      .ofRoute route (usageFromJson value) parentTurn statistics ::
        routes.map fun e => .ofRoute e.1 (usageFromJson e.2) parentTurn (.obj [])
    | _ =>
      [.ofRoute (jsonValueStr entry (lit "route") (lit "delegated/unknown"))
        (usageFromJson usage) parentTurn statistics]

end Reports

/-! ### The accumulator -/

/-- `UsageAccumulator`, and `AccumulatedUsage`, what is taken of it. -/
structure AccumulatedUsage where
  unassigned : Usage := {}
  unassignedStatistics : Json := .obj []
  routes : RouteUsage := []
  turns : List (Int × Usage) := []
  turnStatistics : List (Int × Json) := []

/-- `map[key].Merge(usage)`. -/
def mergeAt [DoubleSum] {κ : Type*} [DecidableEq κ] [LT κ] [DecidableLT κ]
    (usages : List (κ × Usage)) (key : κ) (usage : Usage) : List (κ × Usage) :=
  Assoc.insert key (((Assoc.lookup key usages).getD {}).merge usage) usages

namespace AccumulatedUsage

variable [DoubleSum]

/-- The usage and statistics of a report go to its turn, or to no turn. -/
def addToTurn (a : AccumulatedUsage) (r : UsageReport) : AccumulatedUsage :=
  match r.turn with
  | some turn =>
    { a with
      turns := mergeAt a.turns turn r.usage
      turnStatistics := Assoc.insert turn (mergeNumericStatistics
        ((Assoc.lookup turn a.turnStatistics).getD .null) (r.statistics.getD (.obj [])))
        a.turnStatistics }
  | none =>
    { a with
      unassigned := a.unassigned.merge r.usage
      unassignedStatistics := match r.statistics with
        | some statistics => mergeNumericStatistics a.unassignedStatistics statistics
        | none => a.unassignedStatistics }

/-- `UsageAccumulator::Add`. -/
def add (a : AccumulatedUsage) (r : UsageReport) : AccumulatedUsage :=
  match r.route with
  | some route => { a.addToTurn r with routes := mergeAt a.routes route r.usage }
  | none => a.addToTurn r

/-- The statistics of a turn in a batch. -/
def statisticsOf (batch : AccumulatedUsage) (turn : Int) : Json :=
  (Assoc.lookup turn batch.turnStatistics).getD (.obj [])

/-- All usage of a batch. -/
def total (batch : AccumulatedUsage) : Usage :=
  batch.turns.foldl (fun total e => total.merge e.2) batch.unassigned

/-- Whether the session's total takes the batch. -/
def spent (batch : AccumulatedUsage) : Bool :=
  hasUsage batch.total || !batch.turnStatistics.isEmpty || !batch.unassignedStatistics.isEmpty

end AccumulatedUsage

/-! ### A turn's summary -/

section Summary

variable [DoubleSum]

/-- The summary of a turn: the usage that is amended, the counters that go
with it, and all else it tells. -/
def turnSummary (turn : Int64) (usage : Usage) (side : Json) (directTools directModels : Int)
    (rest : List (Bytes × Json)) : Json :=
  let summary := ((((((Json.ofFields rest).set (lit "turn") (.int turn)).set (lit "tool_calls")
    (.int (Int64.ofInt (directTools + jsonValueInt64 side (lit "tool_calls") 0)))).set
      (lit "direct_tool_calls") (.int (Int64.ofInt directTools))).set (lit "model_calls")
        (.int (Int64.ofInt (directModels + jsonValueInt64 side (lit "model_calls") 0)))).set
          (lit "direct_model_calls") (.int (Int64.ofInt directModels))).set
            (lit "usage") (usageJson usage)
  if side.isEmpty then summary else summary.set (lit "background_statistics") side

/-- The entry of a turn's summary. -/
def summaryEntry (root : Bytes) (summary : Json) : Json :=
  .ofFields [(lit "kind", .str (lit "turn_summary")), (lit "turn_root", .str root),
    (lit "summary", summary)]

/-- The summary in a fact. -/
def factSummary (value : Json) : Json := jsonValue value (lit "summary") (.obj [])

/-- Whether a fact is the summary of a turn. -/
def isSummaryOf (turn : Int) (value : Json) : Bool :=
  value.isObject && jsonValueStr value (lit "kind") [] = lit "turn_summary" &&
    jsonValueInt64 (factSummary value) (lit "turn") 0 = turn

/-- The usage a summary tells. -/
def summaryUsage (value : Json) : Usage :=
  usageFromJson (jsonValue (factSummary value) (lit "usage") (.obj []))

/-- The statistics a summary tells. -/
def summaryStatistics (value : Json) : Json :=
  jsonValue (factSummary value) (lit "background_statistics") (.obj [])

/-- The fact `UpdateTurnSideUsage` finds for a turn. -/
def Conversation.summaryOf (c : Conversation) (turn : Int) : Option (Bytes × Json) :=
  c.displayFacts.find? fun e => isSummaryOf turn e.2

/-- The summary with usage of its turn added. -/
def amendedSummary (value : Json) (usage : Usage) (statistics : Json) : Json :=
  let summary := factSummary value
  let side := mergeNumericStatistics (summaryStatistics value) statistics
  let directTools := jsonValueInt64 summary (lit "direct_tool_calls") 0
  let directModels := jsonValueInt64 summary (lit "direct_model_calls") 0
  NumberedSession.amended (usageJson ((summaryUsage value).merge usage))
    (.bool (jsonValueBool summary (lit "usage_reported") || hasUsage usage)) side
    (.int (Int64.ofInt (directTools + jsonValueInt64 side (lit "tool_calls") 0)))
    (.int (Int64.ofInt (directModels + jsonValueInt64 side (lit "model_calls") 0))) summary

/-- The fact with usage of its turn added. -/
def amendedFact (value : Json) (usage : Usage) (statistics : Json) : Json :=
  value.set (lit "summary") (amendedSummary value usage statistics)

end Summary

/-! ### The accounts -/

/-- Where the usage of a turn is kept: with the turn that runs, or in the fact
of its summary. -/
inductive Account
  | running
  | fact (key : Bytes)
deriving DecidableEq

/-- A report that was charged to a turn; without an account, it had none that
could take it. -/
structure Charge where
  turn : Int
  usage : Usage
  statistics : Option Json := none
  account : Option Account
deriving DecidableEq

/-- The charges reports of a turn make. -/
def chargesTo (account : Option Account) (turn : Int) (reports : List UsageReport) : List Charge :=
  (reports.filter fun r => r.turn = some turn).map fun r =>
    { turn := turn, usage := r.usage, statistics := r.statistics, account := account }

/-- What the agent charges. -/
structure UsageAccounts where
  conversation : Conversation := {}
  sessionUsage : Usage := {}
  routeUsage : RouteUsage := []
  side : AccumulatedUsage := {}
  ledger : List Json := []
  turnId : Int64 := 0
  /-- `Turn` is entered, and does not execute yet -/
  entered : Bool := false
  /-- the usage of the running turn -/
  current : Option Usage := none
  turnSideStatistics : Json := .obj []
  /-- every report made -/
  reported : List UsageReport := []
  /-- those in the accumulator -/
  waiting : List UsageReport := []
  /-- those in the session's total -/
  counted : List UsageReport := []
  /-- those of batches in which there was no usage -/
  uncounted : List UsageReport := []
  /-- the conversation's own counters -/
  own : List Json := []
  charges : List Charge := []
  /-- the facts the session was opened with, as long as no other fact takes
  their place -/
  opened : List (Bytes × Json) := []

inductive UsageEvent
  /-- A response of the conversation's own, with the route it is charged to;
  the caller merges its usage into the running turn's, or is a compaction
  outside of it. -/
  | response (value : Json) (route : Bytes) (toTurn : Bool)
  /-- `UsageAccumulator::Add` on any thread. -/
  | spend (usage : Usage)
  | spendOn (route : Bytes) (usage : Usage) (turn : Int) (statistics : Json)
  /-- A child writes a line of the ledger. -/
  | child (entry : Json)
  /-- `AccountSideUsage`, in the running turn if there is one; the ledger's
  file may be unreadable. -/
  | account (readable : Bool)
  /-- `Turn` is entered, and starts to execute. -/
  | turn
  | execute
  /-- `FinishTurn` records the summary. -/
  | finish (directTools directModels : Int) (rest : List (Bytes × Json)) (root stamp : Bytes)
  /-- A fact that is no summary is recorded, for a message or a call. -/
  | record (key : Bytes) (facts : List (Bytes × Json))
  /-- `AddStatistics` for the conversation itself. -/
  | count (delta : Json)

namespace UsageAccounts

section Steps

variable [DoubleSum]

/-- `AccountModelUsage`, and the merge of its answer into the turn's usage. -/
def accountModelUsage (a : UsageAccounts) (value : Json) (route : Bytes) (toTurn : Bool) :
    UsageAccounts :=
  let usage := ({} : Usage).add value
  let charged := toTurn && a.current.isSome
  let report : UsageReport :=
    { usage := usage, route := some route, turn := if charged then some a.turnId.toInt else none }
  { a with
    sessionUsage := a.sessionUsage.merge usage
    routeUsage := mergeAt a.routeUsage route usage
    current := if charged then a.current.map (·.merge usage) else a.current
    reported := a.reported ++ [report]
    counted := a.counted ++ [report]
    charges := a.charges ++ chargesTo (some .running) a.turnId.toInt [report] }

/-- A thread adds a report. -/
def addSide (a : UsageAccounts) (r : UsageReport) : UsageAccounts :=
  { a with
    side := a.side.add r
    reported := a.reported ++ [r]
    waiting := a.waiting ++ [r] }

/-- A child writes a line. -/
def report (a : UsageAccounts) (entry : Json) : UsageAccounts :=
  { a with
    ledger := a.ledger ++ [entry]
    reported := a.reported ++ entryReports entry }

/-- `DrainChildUsage`. -/
def drainChildUsage (a : UsageAccounts) : UsageAccounts :=
  { a with
    side := (a.ledger.flatMap entryReports).foldl AccumulatedUsage.add a.side
    waiting := a.waiting ++ a.ledger.flatMap entryReports
    ledger := [] }

/-- Whether a turn is the running one. -/
def isRunning (a : UsageAccounts) (turn : Int) : Bool :=
  a.current.isSome && turn = a.turnId.toInt

/-- `AccountSideUsage` up to the summaries of other turns. -/
def chargeBatch (a : UsageAccounts) : UsageAccounts :=
  let batch := a.side
  let running := batch.turns.filter fun e => a.isRunning e.1
  { a with
    side := {}
    routeUsage := batch.routes.foldl (fun routes e => mergeAt routes e.1 e.2) a.routeUsage
    conversation := batch.turns.foldl (fun c e =>
      c.addStatistics (prefixNumericStatistics (lit "side_") (batch.statisticsOf e.1)))
        (a.conversation.addStatistics
          (prefixNumericStatistics (lit "side_") batch.unassignedStatistics))
    current := a.current.map fun usage => running.foldl (fun usage e => usage.merge e.2) usage
    turnSideStatistics := running.foldl (fun statistics e =>
      mergeNumericStatistics statistics (batch.statisticsOf e.1)) a.turnSideStatistics
    sessionUsage := if batch.spent then a.sessionUsage.merge batch.total else a.sessionUsage
    waiting := []
    counted := if batch.spent then a.counted ++ a.waiting else a.counted
    uncounted := if batch.spent then a.uncounted else a.uncounted ++ a.waiting
    charges := a.charges ++ running.flatMap fun e => chargesTo (some .running) e.1 a.waiting }

/-- The account of a turn that does not run. -/
def accountOf (a : UsageAccounts) (turn : Int) (usage : Usage) (statistics : Json) :
    Option Account :=
  if turn ≤ 0 then none
  else
    match a.conversation.summaryOf turn with
    | some (key, value) =>
      if a.conversation.records key (amendedFact value usage statistics) then some (.fact key)
      else none
    | none => none

/-- `UpdateTurnSideUsage`; `reports` are those the usage is of. -/
def updateTurnSideUsage (a : UsageAccounts) (turn : Int) (usage : Usage) (statistics : Json)
    (reports : List UsageReport) : UsageAccounts :=
  { a with
    conversation :=
      if turn ≤ 0 then a.conversation
      else
        match a.conversation.summaryOf turn with
        | some (key, value) =>
          a.conversation.recordDisplay key (amendedFact value usage statistics)
        | none => a.conversation
    charges := a.charges ++ chargesTo (a.accountOf turn usage statistics) turn reports }

/-- `AccountSideUsage`. -/
def accountSideUsage (a : UsageAccounts) (readable : Bool) : UsageAccounts :=
  let a := if readable then a.drainChildUsage else a
  (a.side.turns.filter fun e => !a.isRunning e.1).foldl
    (fun b e => b.updateTurnSideUsage e.1 e.2 (a.side.statisticsOf e.1) a.waiting) a.chargeBatch

/-- Another fact is recorded under a key: no account is left there. -/
def forget (a : UsageAccounts) (key : Bytes) : UsageAccounts :=
  { a with
    charges := a.charges.map fun charge =>
      if charge.account = some (.fact key) then { charge with account := none } else charge
    opened := Assoc.erase key a.opened }

/-- The charges of the running turn go to an account, or lose theirs. -/
def moveRunning (charges : List Charge) (account : Option Account) : List Charge :=
  charges.map fun charge =>
    if charge.account = some .running then { charge with account := account } else charge

/-- The end of `FinishTurn`. -/
def finishTurn (a : UsageAccounts) (usage : Usage) (directTools directModels : Int)
    (rest : List (Bytes × Json)) (root stamp : Bytes) : UsageAccounts :=
  let c := a.conversation
  let entry := summaryEntry root
    (turnSummary a.turnId usage a.turnSideStatistics directTools directModels rest)
  let key := displayName c.nextDisplayId
  let recorded := c.records key (Conversation.entryFacts c.nextDisplayId entry stamp)
  let a := if recorded then a.forget key else a
  { a with
    conversation := (c.recordEntry entry stamp).1
    current := none
    charges := moveRunning a.charges (if recorded then some (.fact key) else none) }

/-- `RecordDisplay` of a fact that is no summary. -/
def recordFact (a : UsageAccounts) (key : Bytes) (facts : Json) : UsageAccounts :=
  let isNew := (Assoc.lookup key a.conversation.displayFacts).isNone
  let a := if isNew then a.forget key else a
  { a with conversation := a.conversation.recordDisplay key facts }

def step (a : UsageAccounts) : UsageEvent → UsageAccounts
  | .response value route toTurn => a.accountModelUsage value route toTurn
  | .spend usage => a.addSide { usage := usage }
  | .spendOn route usage turn statistics => a.addSide (.ofRoute route usage turn statistics)
  | .child entry => a.report entry
  | .account readable => a.accountSideUsage readable
  | .turn =>
    if a.current.isSome then a
    else { a with turnId := a.turnId + 1, entered := true, turnSideStatistics := .obj [] }
  | .execute => if a.entered then { a with entered := false, current := some {} } else a
  | .finish directTools directModels rest root stamp =>
    match a.current with
    | some usage =>
      if rest.all fun e => e.1 ≠ lit "background_statistics" then
        a.finishTurn usage directTools directModels rest root stamp
      else a
    | none => a
  | .record key facts =>
    if facts.all fun e => e.1 ≠ lit "kind" && e.1 ≠ lit "summary" then
      a.recordFact key (.ofFields facts)
    else a
  | .count delta =>
    { a with conversation := a.conversation.addStatistics delta, own := a.own ++ [delta] }

end Steps

end UsageAccounts

/-! ### The accumulator holds what waits -/

/-- The usages of the reports with a key. -/
def usagesAt {κ : Type*} [DecidableEq κ] (key : UsageReport → Option κ) (k : κ)
    (reports : List UsageReport) : List Usage :=
  (reports.filter fun r => key r = some k).map (·.usage)

/-- The statistics of the reports with a turn, or with none. -/
def statisticsAt (turn : Option Int) (reports : List UsageReport) : List Json :=
  (reports.filter fun r => r.turn = turn).filterMap (·.statistics)

theorem usagesAt_append {κ : Type*} [DecidableEq κ] (key : UsageReport → Option κ) (k : κ)
    (xs ys : List UsageReport) :
    usagesAt key k (xs ++ ys) = usagesAt key k xs ++ usagesAt key k ys := by
  rw [usagesAt, List.filter_append, List.map_append]
  rfl

theorem usagesAt_singleton {κ : Type*} [DecidableEq κ] (key : UsageReport → Option κ) (k : κ)
    (r : UsageReport) : usagesAt key k [r] = if key r = some k then [r.usage] else [] := by
  rw [usagesAt, List.filter_singleton]
  split_ifs <;> simp_all

theorem statisticsAt_append (turn : Option Int) (xs ys : List UsageReport) :
    statisticsAt turn (xs ++ ys) = statisticsAt turn xs ++ statisticsAt turn ys := by
  rw [statisticsAt, List.filter_append, List.filterMap_append]
  rfl

theorem statisticsAt_singleton (turn : Option Int) (r : UsageReport) :
    statisticsAt turn [r] = if r.turn = turn then r.statistics.toList else [] := by
  by_cases hr : r.turn = turn
  · cases hstatistics : r.statistics <;> simp [statisticsAt, hr, hstatistics]
  · simp [statisticsAt, hr]

section HeldReports

variable [DoubleSum]

/-- Statistics that may be missing are added. -/
theorem statisticsTally_toList {reports : List Json} {total : Json}
    (h : StatisticsTally reports total) (statistics : Option Json) :
    StatisticsTally (reports ++ statistics.toList)
      (mergeNumericStatistics total (statistics.getD (.obj []))) := by
  cases statistics with
  | some statistics => exact h.snoc statistics
  | none =>
    rw [Option.toList_none, List.append_nil]
    exact h.idle

theorem lookup_mergeAt {κ : Type*} [DecidableEq κ] [LT κ] [DecidableLT κ]
    (usages : List (κ × Usage)) (key k : κ) (usage : Usage) :
    Assoc.lookup k (mergeAt usages key usage) =
      if k = key then some (((Assoc.lookup key usages).getD {}).merge usage)
      else Assoc.lookup k usages :=
  Assoc.lookup_insert key k _ usages

/-- What a map from keys to usages holds for a key. -/
abbrev UsageFound : List Usage → Option Usage → Prop :=
  Tally.Found {} Usage.merge fun written read => read = usageFromJson (usageJson written)

/-- A report with the key is added under it. -/
theorem found_mergeAt {κ : Type*} [DecidableEq κ] [LT κ] [DecidableLT κ]
    {key : UsageReport → Option κ} {waiting : List UsageReport} {usages : List (κ × Usage)}
    (h : ∀ k, UsageFound (usagesAt key k waiting) (Assoc.lookup k usages)) {r : UsageReport}
    {at_ : κ} (hr : key r = some at_) (k : κ) :
    UsageFound (usagesAt key k (waiting ++ [r])) (Assoc.lookup k (mergeAt usages at_ r.usage)) := by
  rw [usagesAt_append, usagesAt_singleton, lookup_mergeAt, hr]
  by_cases hk : k = at_
  · subst hk
    rw [if_pos rfl, if_pos rfl]
    exact (h k).more (.one r.usage)
  · rw [if_neg (fun heq => hk (Option.some.inj heq).symm), if_neg hk, List.append_nil]
    exact h k

/-- A report with no key is added elsewhere. -/
theorem found_of_none {κ : Type*} [DecidableEq κ] [LT κ] [DecidableLT κ]
    {key : UsageReport → Option κ} {waiting : List UsageReport} {usages : List (κ × Usage)}
    (h : ∀ k, UsageFound (usagesAt key k waiting) (Assoc.lookup k usages)) {r : UsageReport}
    (hr : key r = none) (k : κ) :
    UsageFound (usagesAt key k (waiting ++ [r])) (Assoc.lookup k usages) := by
  rw [usagesAt_append, usagesAt_singleton, hr, if_neg (by simp), List.append_nil]
  exact h k

/-- The accumulator is the reports that wait. -/
structure HeldReports (waiting : List UsageReport) (side : AccumulatedUsage) : Prop where
  unassigned : UsageTally ((waiting.filter fun r => r.turn = none).map (·.usage)) side.unassigned
  unassignedStatistics : StatisticsTally (statisticsAt none waiting) side.unassignedStatistics
  routes : ∀ route, UsageFound (usagesAt (·.route) route waiting) (Assoc.lookup route side.routes)
  turns : ∀ turn, UsageFound (usagesAt (·.turn) turn waiting) (Assoc.lookup turn side.turns)
  turnStatistics : ∀ turn,
    StatisticsTally (statisticsAt (some turn) waiting) (side.statisticsOf turn)
  routesSorted : Assoc.Sorted side.routes
  turnsSorted : Assoc.Sorted side.turns
  turnsNamed : ∀ e ∈ side.turns, ∃ r ∈ waiting, r.turn = some e.1

namespace HeldReports

variable {waiting : List UsageReport} {side : AccumulatedUsage}

theorem empty : HeldReports [] {} where
  unassigned := .zero
  unassignedStatistics := .zero
  routes _ := rfl
  turns _ := rfl
  turnStatistics _ := .zero
  routesSorted := List.Pairwise.nil
  turnsSorted := List.Pairwise.nil
  turnsNamed _ he := absurd he List.not_mem_nil

/-- A report is added to its turn. -/
theorem addToTurn (h : HeldReports waiting side) (r : UsageReport) :
    UsageTally (((waiting ++ [r]).filter fun r => r.turn = none).map (·.usage))
        (side.addToTurn r).unassigned ∧
      StatisticsTally (statisticsAt none (waiting ++ [r]))
        (side.addToTurn r).unassignedStatistics ∧
      (∀ turn, UsageFound (usagesAt (·.turn) turn (waiting ++ [r]))
        (Assoc.lookup turn (side.addToTurn r).turns)) ∧
      (∀ turn, StatisticsTally (statisticsAt (some turn) (waiting ++ [r]))
        ((side.addToTurn r).statisticsOf turn)) ∧
      Assoc.Sorted (side.addToTurn r).turns := by
  rw [AccumulatedUsage.addToTurn, List.filter_append, List.map_append]
  simp only [statisticsAt_append, statisticsAt_singleton]
  cases hturn : r.turn with
  | some turn =>
    refine ⟨?_, ?_, found_mergeAt h.turns hturn, ?_, Assoc.sorted_insert h.turnsSorted _ _⟩
    · rw [List.filter_cons_of_neg (by simp [hturn]), List.filter_nil, List.map_nil, List.append_nil]
      exact h.unassigned
    · rw [if_neg (by simp), List.append_nil]
      exact h.unassignedStatistics
    · intro t
      show StatisticsTally _ ((Assoc.lookup t (Assoc.insert turn _ side.turnStatistics)).getD _)
      rw [Assoc.lookup_insert]
      by_cases ht : t = turn
      · subst ht
        rw [if_pos rfl, if_pos rfl, Option.getD_some]
        -- a turn without statistics starts from `null`
        have hstart : mergeNumericStatistics
            ((Assoc.lookup t side.turnStatistics).getD .null) (r.statistics.getD (.obj [])) =
              mergeNumericStatistics (side.statisticsOf t) (r.statistics.getD (.obj [])) := by
          rw [AccumulatedUsage.statisticsOf]
          cases Assoc.lookup t side.turnStatistics with
          | some statistics => rfl
          | none => exact mergeNumericStatistics_null _
        rw [hstart]
        exact statisticsTally_toList (h.turnStatistics t) r.statistics
      · rw [if_neg ht, if_neg (fun heq => ht (Option.some.inj heq).symm), List.append_nil]
        exact h.turnStatistics t
  | none =>
    refine ⟨?_, ?_, found_of_none h.turns hturn, ?_, h.turnsSorted⟩
    · rw [List.filter_cons_of_pos (by simp [hturn]), List.filter_nil]
      exact h.unassigned.snoc r.usage
    · rw [if_pos rfl]
      cases hstatistics : r.statistics with
      | some statistics => exact h.unassignedStatistics.snoc statistics
      | none =>
        rw [Option.toList_none, List.append_nil]
        exact h.unassignedStatistics
    · intro t
      rw [if_neg (by simp), List.append_nil]
      exact h.turnStatistics t

/-- The turns of the accumulator are those its reports name. -/
theorem named_addToTurn (h : HeldReports waiting side) (r : UsageReport) :
    ∀ e ∈ (side.addToTurn r).turns, ∃ r' ∈ waiting ++ [r], r'.turn = some e.1 := by
  have hold : ∀ e ∈ side.turns, ∃ r' ∈ waiting ++ [r], r'.turn = some e.1 := fun e he => by
    obtain ⟨r', hr', hturn⟩ := h.turnsNamed e he
    exact ⟨r', List.mem_append_left [r] hr', hturn⟩
  rw [AccumulatedUsage.addToTurn]
  cases hturn : r.turn with
  | none => exact hold
  | some turn =>
    intro e he
    rcases Assoc.eq_or_mem_of_mem_insert he with rfl | he
    · exact ⟨r, List.mem_append_right waiting List.mem_cons_self, hturn⟩
    · exact hold e he

/-- A report is added. -/
theorem add (h : HeldReports waiting side) (r : UsageReport) :
    HeldReports (waiting ++ [r]) (side.add r) := by
  obtain ⟨hunassigned, hstatistics, hturns, hturnStatistics, hsorted⟩ := h.addToTurn r
  have hnamed := h.named_addToTurn r
  have hroutes : (side.addToTurn r).routes = side.routes := by
    rw [AccumulatedUsage.addToTurn]
    split <;> rfl
  rw [AccumulatedUsage.add]
  cases hroute : r.route with
  | some route =>
    exact ⟨hunassigned, hstatistics, found_mergeAt h.routes hroute, hturns, hturnStatistics,
      Assoc.sorted_insert h.routesSorted _ _, hsorted, hnamed⟩
  | none =>
    refine ⟨hunassigned, hstatistics, ?_, hturns, hturnStatistics, ?_, hsorted, hnamed⟩
    · rw [hroutes]
      exact found_of_none h.routes hroute
    · rw [hroutes]
      exact h.routesSorted

/-- What a map holds is all reports that have a key. -/
theorem flatMap_found {κ : Type*} [DecidableEq κ] [LT κ] [DecidableLT κ]
    [IsStrictTotalOrder κ (· < ·)] {key : UsageReport → Option κ} {reports : List UsageReport}
    {usages : List (κ × Usage)} (hsorted : Assoc.Sorted usages)
    (hfound : ∀ k, UsageFound (usagesAt key k reports) (Assoc.lookup k usages)) :
    (usages.flatMap fun e => reports.filter fun r => key r = some e.1).Perm
      (reports.filter fun r => (key r).isSome) := by
  have hnodup : (usages.map fun e => some e.1).Nodup := by
    have hkeys : (usages.map Prod.fst).Nodup := hsorted.imp fun hlt heq => by
      rw [heq] at hlt
      exact irrefl_of (· < ·) _ hlt
    have hsome := hkeys.map (Option.some_injective κ)
    rwa [List.map_map] at hsome
  have hperm := List.flatMap_filter_perm key hnodup reports
  rw [List.flatMap_map] at hperm
  refine hperm.trans (.of_eq (List.filter_congr fun r hr => ?_))
  cases hkey : key r with
  | none => simp
  | some k =>
    simp only [List.mem_map, Option.some.injEq, Option.isSome_some, decide_eq_true_eq]
    -- a key that is not in the map has no reports
    cases hlookup : Assoc.lookup k usages with
    | some u => exact ⟨(k, u), Assoc.mem_of_lookup hlookup, rfl⟩
    | none =>
      have hnone := hfound k
      rw [hlookup] at hnone
      have hmem : r.usage ∈ usagesAt key k reports :=
        List.mem_map_of_mem (List.mem_filter.mpr ⟨hr, by simpa using hkey⟩)
      rw [show usagesAt key k reports = [] from hnone] at hmem
      exact absurd hmem List.not_mem_nil

/-- The reports that wait, turn by turn. -/
theorem reports_perm (h : HeldReports waiting side) :
    (waiting.filter (fun r => r.turn = none) ++
      side.turns.flatMap fun e => waiting.filter fun r => r.turn = some e.1).Perm waiting := by
  refine ((flatMap_found h.turnsSorted h.turns).append_left _).trans ?_
  refine (List.filter_append_filter_perm fun r _ hr => ?_).trans (.of_eq ?_)
  · rw [of_decide_eq_true hr]
    rfl
  · rw [List.filter_eq_self]
    intro r _
    cases r.turn <;> rfl

/-- The usage of a turn in the batch is the turn's. -/
theorem turn_tally (h : HeldReports waiting side) {e : Int × Usage} (he : e ∈ side.turns) :
    UsageTally (usagesAt (·.turn) e.1 waiting) e.2 := by
  have hfound := h.turns e.1
  rwa [Assoc.lookup_of_mem h.turnsSorted he] at hfound

/-- **A batch is what waited.** -/
theorem total_tally (h : HeldReports waiting side) : UsageTally (waiting.map (·.usage)) side.total := by
  have hfold := h.unassigned.foldl fun e he => h.turn_tally he
  refine hfold.perm ?_
  have hperm := h.reports_perm.map (·.usage)
  rwa [List.map_append, List.map_flatMap] at hperm

/-- Statistics of a batch are those that waited. -/
theorem statistics_perm (h : HeldReports waiting side) :
    (statisticsAt none waiting ++
      side.turns.flatMap fun e => statisticsAt (some e.1) waiting).Perm
        (waiting.filterMap (·.statistics)) := by
  have hperm := h.reports_perm.filterMap (·.statistics)
  rwa [List.filterMap_append, List.filterMap_flatMap] at hperm

end HeldReports

end HeldReports

/-! ### The totals -/

namespace UsageAccounts

section Totals

variable [DoubleSum]

/-- The usage of a route. -/
def usageOf (a : UsageAccounts) (route : Bytes) : Usage :=
  (Assoc.lookup route a.routeUsage).getD {}

/-- **The totals are the reports**, each counted once: the session's, a
route's, and the conversation's statistics, from those it was opened with. -/
structure Totals (s a : UsageAccounts) : Prop where
  held : HeldReports a.waiting a.side
  reports : (a.counted ++ a.uncounted ++ a.waiting ++ a.ledger.flatMap entryReports).Perm
    a.reported
  uncounted : ∀ r ∈ a.uncounted, hasUsage (({} : Usage).merge r.usage) = false
  session : UsageTally (s.sessionUsage :: a.counted.map (·.usage)) a.sessionUsage
  routes : ∀ route, UsageTally
    (s.usageOf route :: usagesAt (·.route) route (a.counted ++ a.uncounted)) (a.usageOf route)
  statistics : StatisticsTally
    (s.conversation.statistics :: a.own ++ (a.counted ++ a.uncounted).filterMap (·.statistics))
    a.conversation.statistics

/-- An account of a session that was opened, before any report. -/
structure Opened (s : UsageAccounts) : Prop where
  ordered : s.conversation.FactsOrdered
  opened : s.opened = s.conversation.displayFacts
  idle : s.current = none ∧ s.entered = false ∧ s.turnSideStatistics = .obj []
  side : s.side = {}
  ledger : s.ledger = []
  records : s.reported = [] ∧ s.waiting = [] ∧ s.counted = [] ∧ s.uncounted = [] ∧ s.own = [] ∧
    s.charges = []

namespace Totals

variable {s a : UsageAccounts}

theorem start (h : s.Opened) : Totals s s := by
  obtain ⟨hreported, hwaiting, hcounted, huncounted, hown, -⟩ := h.records
  refine ⟨?_, ?_, ?_, ?_, fun route => ?_, ?_⟩
  · rw [hwaiting, h.side]
    exact .empty
  · rw [hcounted, huncounted, hwaiting, h.ledger, hreported]
    exact .refl _
  · rw [huncounted]
    exact fun r hr => absurd hr List.not_mem_nil
  · rw [hcounted]
    exact .one _
  · rw [hcounted, huncounted]
    exact .one _
  · rw [hcounted, huncounted, hown]
    exact .one _

/-- A response is charged. -/
theorem response (h : Totals s a) (value : Json) (route : Bytes) (toTurn : Bool) :
    Totals s (a.accountModelUsage value route toTurn) := by
  set usage := ({} : Usage).add value
  set r : UsageReport :=
    { usage := usage, route := some route
      turn := if toTurn && a.current.isSome then some a.turnId.toInt else none }
  have hordered : ((a.counted ++ [r]) ++ a.uncounted).Perm ((a.counted ++ a.uncounted) ++ [r]) := by
    rw [List.append_assoc, List.append_assoc]
    exact List.perm_append_comm.append_left _
  refine { held := h.held, uncounted := h.uncounted, reports := ?_, session := ?_, routes := ?_,
           statistics := ?_ }
  · show ((a.counted ++ [r]) ++ a.uncounted ++ a.waiting ++ _).Perm (a.reported ++ [r])
    refine .trans ?_ (h.reports.append_right [r])
    rw [List.append_assoc, List.append_assoc _ a.waiting, List.append_assoc (_ ++ _) _ [r]]
    refine (hordered.append_right _).trans ?_
    rw [List.append_assoc]
    exact List.perm_append_comm.append_left _
  · show UsageTally (_ :: (a.counted ++ [r]).map _) (a.sessionUsage.merge usage)
    rw [List.map_append]
    exact h.session.snoc usage
  · intro name
    show UsageTally (_ :: usagesAt _ name ((a.counted ++ [r]) ++ a.uncounted))
      ((Assoc.lookup name (mergeAt a.routeUsage route usage)).getD {})
    have htally : UsageTally
        (s.usageOf name :: usagesAt (·.route) name ((a.counted ++ a.uncounted) ++ [r]))
        ((Assoc.lookup name (mergeAt a.routeUsage route usage)).getD {}) := by
      rw [usagesAt_append, usagesAt_singleton, lookup_mergeAt]
      by_cases hname : name = route
      · subst hname
        rw [if_pos rfl, if_pos rfl]
        exact (h.routes name).snoc usage
      · rw [if_neg hname, if_neg fun heq => hname (Option.some.inj heq).symm, List.append_nil]
        exact h.routes name
    exact htally.perm (.cons _ ((hordered.symm.filter _).map _))
  · refine h.statistics.perm ?_
    show (_ :: a.own ++ _).Perm (_ :: a.own ++ ((a.counted ++ [r]) ++ a.uncounted).filterMap _)
    refine List.Perm.append_left _ ?_
    refine .trans (.of_eq ?_) (hordered.symm.filterMap _)
    rw [@List.filterMap_append _ _ _ [r]]
    exact (List.append_nil _).symm

/-- A report is added to the accumulator. -/
theorem side (h : Totals s a) (r : UsageReport) : Totals s (a.addSide r) := by
  refine { held := h.held.add r, uncounted := h.uncounted, session := h.session,
           routes := h.routes, statistics := h.statistics, reports := ?_ }
  show (a.counted ++ a.uncounted ++ (a.waiting ++ [r]) ++ _).Perm (a.reported ++ [r])
  refine .trans ?_ (h.reports.append_right [r])
  rw [← List.append_assoc, List.append_assoc _ [r], List.append_assoc (_ ++ a.waiting) _ [r]]
  exact List.perm_append_comm.append_left _

/-- A child writes a line. -/
theorem child (h : Totals s a) (entry : Json) : Totals s (a.report entry) := by
  refine { held := h.held, uncounted := h.uncounted, session := h.session, routes := h.routes,
           statistics := h.statistics, reports := ?_ }
  show (a.counted ++ a.uncounted ++ a.waiting ++ (a.ledger ++ [entry]).flatMap entryReports).Perm
    (a.reported ++ entryReports entry)
  refine .trans (.of_eq ?_) (h.reports.append_right (entryReports entry))
  rw [List.flatMap_append, List.flatMap_singleton, ← List.append_assoc]

/-- The ledger is read. -/
theorem drain (h : Totals s a) : Totals s a.drainChildUsage := by
  have hheld : ∀ (reports waiting : List UsageReport) (side : AccumulatedUsage),
      HeldReports waiting side → HeldReports (waiting ++ reports) (reports.foldl AccumulatedUsage.add side) := by
    intro reports
    induction reports with
    | nil => exact fun waiting side hside => (List.append_nil waiting).symm ▸ hside
    | cons r reports ih =>
      intro waiting side hside
      have hrest := ih _ _ (hside.add r)
      rwa [List.append_assoc] at hrest
  refine { held := hheld _ _ _ h.held, uncounted := h.uncounted, session := h.session,
           routes := h.routes, statistics := h.statistics, reports := ?_ }
  refine .trans (.of_eq ?_) h.reports
  show a.counted ++ a.uncounted ++ (a.waiting ++ a.ledger.flatMap entryReports) ++ [] = _
  rw [List.append_nil, List.append_assoc _ a.waiting]

/-- The routes of a batch are added to the routes. -/
theorem lookup_foldl_mergeAt {batch usages : RouteUsage} (hsorted : Assoc.Sorted batch)
    (route : Bytes) :
    Assoc.lookup route (batch.foldl (fun routes e => mergeAt routes e.1 e.2) usages) =
      match Assoc.lookup route batch with
      | some usage => some (((Assoc.lookup route usages).getD {}).merge usage)
      | none => Assoc.lookup route usages := by
  induction batch generalizing usages with
  | nil => rfl
  | cons e batch ih =>
    rw [List.foldl_cons, ih (List.pairwise_cons.mp hsorted).2, lookup_mergeAt, Assoc.lookup_cons]
    by_cases hroute : route = e.1
    · have hnone : Assoc.lookup e.1 batch = none := Assoc.lookup_eq_none.mpr fun hmem =>
        absurd ((List.pairwise_cons.mp hsorted).1 e.1 hmem) (irrefl_of (· < ·) e.1)
      subst hroute
      rw [hnone, if_pos rfl, if_pos rfl]
    · rw [if_neg hroute, if_neg (Ne.symm hroute)]

/-- Statistics of a batch are added to the conversation's. -/
theorem chargeBatch_conversation (a : UsageAccounts) :
    a.chargeBatch.conversation =
      { a.conversation with
        statistics := a.side.turns.foldl (fun statistics e => mergeNumericStatistics statistics
          (prefixNumericStatistics (lit "side_") (a.side.statisticsOf e.1)))
          (mergeNumericStatistics a.conversation.statistics
            (prefixNumericStatistics (lit "side_") a.side.unassignedStatistics)) } := by
  have hfold : ∀ (turns : List (Int × Usage)) (c : Conversation),
      turns.foldl (fun c e => c.addStatistics
        (prefixNumericStatistics (lit "side_") (a.side.statisticsOf e.1))) c =
      { c with
        statistics := turns.foldl (fun statistics e => mergeNumericStatistics statistics
          (prefixNumericStatistics (lit "side_") (a.side.statisticsOf e.1))) c.statistics } := by
    intro turns
    induction turns with
    | nil => exact fun c => rfl
    | cons e turns ih => exact fun c => ih _
  exact hfold a.side.turns _

/-- The reports that were charged, with those of the batch. -/
theorem chargeBatch_perm (a : UsageAccounts) :
    (a.chargeBatch.counted ++ a.chargeBatch.uncounted).Perm
      ((a.counted ++ a.uncounted) ++ a.waiting) := by
  show ((if a.side.spent then a.counted ++ a.waiting else a.counted) ++
    if a.side.spent then a.uncounted else a.uncounted ++ a.waiting).Perm _
  split_ifs
  · rw [List.append_assoc, List.append_assoc]
    exact List.perm_append_comm.append_left _
  · rw [List.append_assoc]

/-- **A batch is charged once.** -/
theorem chargeBatch [LawfulDoubleSum] (h : Totals s a) : Totals s a.chargeBatch := by
  have htotal := h.held.total_tally
  have hperm := chargeBatch_perm a
  refine ⟨.empty, ?_, ?_, ?_, ?_, ?_⟩
  · refine ((hperm.append_right _).append_right _).trans ?_
    show ((a.counted ++ a.uncounted) ++ a.waiting ++ [] ++ a.ledger.flatMap entryReports).Perm _
    rw [List.append_nil]
    exact h.reports
  · show ∀ r ∈ (if a.side.spent then a.uncounted else a.uncounted ++ a.waiting), _
    intro r hr
    split_ifs at hr with hspent
    · exact h.uncounted r hr
    · rcases List.mem_append.mp hr with hr | hr
      · exact h.uncounted r hr
      · simp only [AccumulatedUsage.spent, Bool.or_eq_true, not_or, Bool.not_eq_true] at hspent
        exact htotal.hasUsage hspent.1.1 (List.mem_map_of_mem hr)
  · show UsageTally (_ :: (if a.side.spent then a.counted ++ a.waiting else a.counted).map _)
      (if a.side.spent then a.sessionUsage.merge a.side.total else a.sessionUsage)
    split_ifs
    · rw [List.map_append]
      exact h.session.add htotal
    · exact h.session
  · intro route
    refine Tally.perm (.cons _ ((hperm.symm.filter _).map _)) ?_
    show UsageTally (_ :: usagesAt _ route _)
      ((Assoc.lookup route (a.side.routes.foldl _ a.routeUsage)).getD {})
    rw [lookup_foldl_mergeAt h.held.routesSorted]
    have hfound := h.held.routes route
    cases hlookup : Assoc.lookup route a.side.routes with
    | some usage =>
      rw [hlookup] at hfound
      rw [usagesAt_append]
      exact (h.routes route).add hfound
    | none =>
      rw [hlookup] at hfound
      rw [usagesAt_append, show usagesAt (·.route) route a.waiting = [] from hfound,
        List.append_nil]
      exact h.routes route
  · have hunassigned := h.statistics.add (.view rfl h.held.unassignedStatistics)
    have hparts : ∀ e ∈ a.side.turns, StatisticsTally (statisticsAt (some e.1) a.waiting)
        (prefixNumericStatistics (lit "side_") (a.side.statisticsOf e.1)) := fun e _ =>
      .view rfl (h.held.turnStatistics e.1)
    rw [chargeBatch_conversation]
    refine (hunassigned.foldl hparts).perm ?_
    rw [List.append_assoc]
    show (_ :: a.own ++ _ ++ _).Perm (_ :: a.own ++ _)
    rw [List.append_assoc]
    refine List.Perm.append_left _ ?_
    refine ((h.held.statistics_perm).append_left _).trans ?_
    refine .trans (.of_eq ?_) (hperm.symm.filterMap _)
    rw [@List.filterMap_append _ _ _ a.waiting]

end Totals

end Totals

end UsageAccounts

end UAgent
