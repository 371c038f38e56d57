/-
UAgent/Agent/TurnAccounts.lean

The accounts of turns: what `AccountSideUsage` and `UpdateTurnSideUsage` of
src/agent/usage_accounting.cc charge to the running turn, and to the summary
of a turn that is over.

A charge is followed to its account.  The running turn's account becomes the
fact of its summary when the turn finishes; a summary is amended in place; a
fact that is evicted takes its account with it, and one that would outgrow its
bound is left as it was, so what is charged to it is missed.

Main result: `Accounted.run`.  To which account a charge goes is said in
UAgent.Agent.ChargePlacement.
-/
import UAgent.Agent.UsageAccounting

namespace UAgent

open Bytes

namespace UsageAccounts

/-! ### The accounts of turns -/

section Amended

/-- The members of an amended summary. -/
theorem get?_amended {summary : Json} (h : summary.isObject = true)
    (usage reported side tools models : Json) :
    (NumberedSession.amended usage reported side tools models summary).get? (lit "usage") =
        some usage ∧
      (NumberedSession.amended usage reported side tools models summary).get?
        (lit "background_statistics") = some side ∧
      (NumberedSession.amended usage reported side tools models summary).get? (lit "turn") =
        summary.get? (lit "turn") := by
  rw [NumberedSession.amended]
  refine ⟨?_, ?_, ?_⟩
  · rw [Json.get?_set_ne _ _ (by decide), Json.get?_set_ne _ _ (by decide),
      Json.get?_set_ne _ _ (by decide), Json.get?_set_ne _ _ (by decide), Json.get?_set h,
      if_pos rfl]
  · rw [Json.get?_set_ne _ _ (by decide), Json.get?_set_ne _ _ (by decide),
      Json.get?_set (Json.isObject_set (Json.isObject_set h _ _) _ _), if_pos rfl]
  · rw [Json.get?_set_ne _ _ (by decide), Json.get?_set_ne _ _ (by decide),
      Json.get?_set_ne _ _ (by decide), Json.get?_set_ne _ _ (by decide),
      Json.get?_set_ne _ _ (by decide)]

variable {value : Json} {turn : Int}

/-- What a fact tells of a turn is read off its kind and its summary. -/
theorem isSummaryOf_congr {value' : Json} (hobject : value'.isObject = value.isObject)
    (hkind : value'.get? (lit "kind") = value.get? (lit "kind"))
    (hturn : (factSummary value').get? (lit "turn") = (factSummary value).get? (lit "turn"))
    (turn : Int) : isSummaryOf turn value' = isSummaryOf turn value := by
  rw [isSummaryOf, isSummaryOf, hobject, jsonValueStr, jsonValueStr, hkind, jsonValueInt64,
    jsonValueInteger, jsonValueInteger, hturn]

/-- A summary that names a turn is an object. -/
theorem isObject_factSummary (h : isSummaryOf turn value = true) (hturn : 0 < turn) :
    (factSummary value).isObject = true := by
  simp only [isSummaryOf, Bool.and_eq_true, decide_eq_true_eq] at h
  obtain ⟨-, h⟩ := h
  cases hget : (factSummary value).get? (lit "turn") with
  | some v => exact Json.isObject_of_get? hget
  | none =>
    rw [jsonValueInt64, jsonValueInteger, hget] at h
    exact absurd hturn (by rw [← h]; decide)

theorem factSummary_of_get? {summary : Json} (h : value.get? (lit "summary") = some summary) :
    factSummary value = summary := by
  rw [factSummary, jsonValue, h]
  rfl

variable [DoubleSum]

/-- The fact `RecordDisplay` stores for an amended one: its usage, its
statistics, and the turn it is of. -/
theorem amended_spec {c : Conversation} (hordered : c.FactsOrdered) {key : Bytes}
    (hlookup : Assoc.lookup key c.displayFacts = some value) (h : isSummaryOf turn value = true)
    (hturn : 0 < turn) (usage : Usage) (statistics : Json) :
    summaryUsage (c.mergedFacts key (amendedFact value usage statistics)) =
        usageFromJson (usageJson ((summaryUsage value).merge usage)) ∧
      summaryStatistics (c.mergedFacts key (amendedFact value usage statistics)) =
        mergeNumericStatistics (summaryStatistics value) statistics ∧
      ∀ t, isSummaryOf t (c.mergedFacts key (amendedFact value usage statistics)) =
        isSummaryOf t value := by
  have hobject : value.isObject = true := by
    simp only [isSummaryOf, Bool.and_eq_true] at h
    exact h.1.1
  have hkeyed : value.Keyed := hordered.keyed _ (Assoc.mem_of_lookup hlookup) hobject
  obtain ⟨husage, hside, hnumber⟩ := get?_amended (isObject_factSummary h hturn)
    (usageJson ((summaryUsage value).merge usage))
    (.bool (jsonValueBool (factSummary value) (lit "usage_reported") || hasUsage usage))
    (mergeNumericStatistics (summaryStatistics value) statistics)
    (.int (Int64.ofInt (jsonValueInt64 (factSummary value) (lit "direct_tool_calls") 0 +
      jsonValueInt64 (mergeNumericStatistics (summaryStatistics value) statistics)
        (lit "tool_calls") 0)))
    (.int (Int64.ofInt (jsonValueInt64 (factSummary value) (lit "direct_model_calls") 0 +
      jsonValueInt64 (mergeNumericStatistics (summaryStatistics value) statistics)
        (lit "model_calls") 0)))
  have hget : ∀ k, (c.mergedFacts key (amendedFact value usage statistics)).get? k =
      if k = lit "summary" then some (amendedSummary value usage statistics)
      else value.get? k := by
    intro k
    rw [amendedFact, Conversation.get?_mergedFacts (hkeyed.set _ _), hlookup, Option.bind_some,
      Json.get?_set hobject]
    split_ifs
    · rfl
    · exact Option.or_self
  have hsummary := factSummary_of_get? (hget (lit "summary"))
  refine ⟨?_, ?_, fun t => isSummaryOf_congr ?_ ?_ ?_ t⟩
  · rw [summaryUsage, hsummary, jsonValue, amendedSummary, husage]
    rfl
  · rw [summaryStatistics, hsummary, jsonValue, amendedSummary, hside]
    rfl
  · rw [hobject]
    exact (Conversation.keyed_mergedFacts hordered (hkeyed.set _ _)).isObject
  · exact hget (lit "kind")
  · rw [hsummary, amendedSummary, hnumber]

end Amended

/-! ### The summary a turn leaves -/

/-- A member that was not written is not there. -/
theorem get?_ofFields_of_ne {fields : List (Bytes × Json)} {key : Bytes}
    (h : ∀ e ∈ fields, e.1 ≠ key) : (Json.ofFields fields).get? key = none := by
  have hfold : ∀ (fields m : List (Bytes × Json)), (∀ e ∈ fields, e.1 ≠ key) →
      Assoc.lookup key (fields.foldl (fun m e => Assoc.insert e.1 e.2 m) m) =
        Assoc.lookup key m := by
    intro fields
    induction fields with
    | nil => exact fun m _ => rfl
    | cons e fields ih =>
      intro m hne
      rw [List.foldl_cons, ih _ fun e he => hne e (List.mem_cons_of_mem _ he),
        Assoc.lookup_insert_ne (hne e List.mem_cons_self).symm]
  exact hfold fields [] h

/-- The number of a turn is read as it is written. -/
theorem jsonValueInt64_turn {object : Json} {key : Bytes} {turn : Int64}
    (h : object.get? key = some (.int turn)) : jsonValueInt64 object key 0 = turn.toInt := by
  have hle := turn.le_toInt
  have hlt := turn.toInt_lt
  rw [jsonValueInt64, jsonValueInteger, h]
  show (if turn.toInt < -2 ^ 63 ∨ 2 ^ 63 - 1 < turn.toInt then 0 else turn.toInt) = turn.toInt
  rw [if_neg (by omega)]

/-- What the entry of a summary tells. -/
theorem summaryEntry_spec (id : UInt64) (root stamp : Bytes) (summary : Json) :
    (Conversation.entryFacts id (summaryEntry root summary) stamp).Keyed ∧
      (Conversation.entryFacts id (summaryEntry root summary) stamp).get? (lit "kind") =
        some (.str (lit "turn_summary")) ∧
      (Conversation.entryFacts id (summaryEntry root summary) stamp).get? (lit "summary") =
        some summary := by
  refine ⟨?_, rfl, rfl⟩
  have hkeyed : (summaryEntry root summary).Keyed := Json.keyed_ofFields _
  exact (((hkeyed.set _ _).set _ _).set _ _)

section Left

variable [DoubleSum]

/-- The members of a turn's summary that are amended later. -/
theorem get?_turnSummary (turn : Int64) (usage : Usage) {side : Json}
    (hside : side.isObject = true) (directTools directModels : Int) {rest : List (Bytes × Json)}
    (hrest : ∀ e ∈ rest, e.1 ≠ lit "background_statistics") :
    (turnSummary turn usage side directTools directModels rest).get? (lit "usage") =
        some (usageJson usage) ∧
      jsonValue (turnSummary turn usage side directTools directModels rest)
        (lit "background_statistics") (.obj []) = side ∧
      (turnSummary turn usage side directTools directModels rest).get? (lit "turn") =
        some (.int turn) := by
  have hkeyed := Json.keyed_ofFields rest
  have hobject := hkeyed.isObject
  rw [turnSummary]
  split_ifs with hempty
  · refine ⟨?_, ?_, ?_⟩
    · rw [Json.get?_set, if_pos rfl]
      exact (((((hkeyed.set _ _).set _ _).set _ _).set _ _).set _ _).isObject
    · -- without statistics the summary has no such member
      have hnil : side = .obj [] := by
        cases side with
        | obj fields => rw [List.isEmpty_iff.mp hempty]
        | _ => exact absurd hside (by simp [Json.isObject])
      rw [jsonValue, Json.get?_set_ne _ _ (by decide), Json.get?_set_ne _ _ (by decide),
        Json.get?_set_ne _ _ (by decide), Json.get?_set_ne _ _ (by decide),
        Json.get?_set_ne _ _ (by decide), Json.get?_set_ne _ _ (by decide),
        get?_ofFields_of_ne hrest, hnil]
      rfl
    · rw [Json.get?_set_ne _ _ (by decide), Json.get?_set_ne _ _ (by decide),
        Json.get?_set_ne _ _ (by decide), Json.get?_set_ne _ _ (by decide),
        Json.get?_set_ne _ _ (by decide), Json.get?_set hobject, if_pos rfl]
  · refine ⟨?_, ?_, ?_⟩
    · rw [Json.get?_set_ne _ _ (by decide), Json.get?_set, if_pos rfl]
      exact (((((hkeyed.set _ _).set _ _).set _ _).set _ _).set _ _).isObject
    · rw [jsonValue, Json.get?_set, if_pos rfl]
      · rfl
      · exact ((((((hkeyed.set _ _).set _ _).set _ _).set _ _).set _ _).set _ _).isObject
    · rw [Json.get?_set_ne _ _ (by decide), Json.get?_set_ne _ _ (by decide),
        Json.get?_set_ne _ _ (by decide), Json.get?_set_ne _ _ (by decide),
        Json.get?_set_ne _ _ (by decide), Json.get?_set_ne _ _ (by decide),
        Json.get?_set hobject, if_pos rfl]

/-- A summary is recorded as an entry of its own. -/
theorem recordEntry_summary (c : Conversation) (root stamp : Bytes) (summary : Json) :
    (c.recordEntry (summaryEntry root summary) stamp).1 =
      c.mint.recordDisplay (displayName c.nextDisplayId)
        (Conversation.entryFacts c.nextDisplayId (summaryEntry root summary) stamp) := by
  have hsummary : Conversation.isSummary
      (Conversation.entryFacts c.nextDisplayId (summaryEntry root summary) stamp) = true := rfl
  rw [Conversation.recordEntry, if_pos hsummary]

end Left

/-! ### What an account holds -/

/-- The charges that went to an account. -/
def onAccount (account : Account) (charges : List Charge) : List Charge :=
  charges.filter fun charge => charge.account = some account

theorem onAccount_append (account : Account) (xs ys : List Charge) :
    onAccount account (xs ++ ys) = onAccount account xs ++ onAccount account ys :=
  List.filter_append ..

/-- Charges of one call go to one account. -/
theorem onAccount_chargesTo (account : Account) (target : Option Account) (turn : Int)
    (reports : List UsageReport) :
    onAccount account (chargesTo target turn reports) =
      if target = some account then chargesTo target turn reports else [] := by
  rw [onAccount, chargesTo]
  split_ifs with htarget
  · rw [List.filter_eq_self]
    intro charge hcharge
    obtain ⟨r, -, rfl⟩ := List.mem_map.mp hcharge
    exact decide_eq_true htarget
  · rw [List.filter_eq_nil_iff]
    intro charge hcharge
    obtain ⟨r, -, rfl⟩ := List.mem_map.mp hcharge
    simpa using htarget

theorem turn_of_mem_chargesTo {target : Option Account} {turn : Int} {reports : List UsageReport}
    {charge : Charge} (h : charge ∈ chargesTo target turn reports) : charge.turn = turn := by
  obtain ⟨r, -, rfl⟩ := List.mem_map.mp h
  rfl

theorem usage_chargesTo (target : Option Account) (turn : Int) (reports : List UsageReport) :
    (chargesTo target turn reports).map (·.usage) = usagesAt (·.turn) turn reports := by
  rw [chargesTo, List.map_map]
  rfl

theorem statistics_chargesTo (target : Option Account) (turn : Int)
    (reports : List UsageReport) :
    (chargesTo target turn reports).filterMap (·.statistics) =
      statisticsAt (some turn) reports := by
  rw [chargesTo, List.filterMap_map]
  rfl

/-- The charges of a key that is taken have no account; the others keep
theirs. -/
theorem onAccount_forget (a : UsageAccounts) (key : Bytes) (account : Account) :
    onAccount account (a.forget key).charges =
      if account = .fact key then [] else onAccount account a.charges := by
  show onAccount account (a.charges.map _) = _
  induction a.charges with
  | nil => split_ifs <;> rfl
  | cons charge charges ih =>
    rw [List.map_cons, onAccount, onAccount, List.filter_cons, List.filter_cons, ← onAccount,
      ← onAccount, ih]
    by_cases hcharge : charge.account = some (.fact key)
    · rw [if_pos hcharge, hcharge]
      by_cases haccount : account = .fact key
      · simp [haccount]
      · simp [haccount, Ne.symm haccount]
    · rw [if_neg hcharge]
      by_cases haccount : account = .fact key
      · subst haccount
        simp [hcharge]
      · simp [haccount]

/-- The running turn's charges leave it. -/
theorem onAccount_moveRunning_running (charges : List Charge) {target : Option Account}
    (h : target ≠ some .running) : onAccount .running (moveRunning charges target) = [] := by
  rw [onAccount, moveRunning, List.filter_eq_nil_iff]
  intro charge hcharge
  obtain ⟨charge, -, rfl⟩ := List.mem_map.mp hcharge
  split_ifs with hrunning
  · simpa using h
  · simpa using hrunning

/-- They come to one account, and the others keep theirs. -/
theorem onAccount_moveRunning_ne (charges : List Charge) {target : Option Account}
    {account : Account} (hrunning : account ≠ .running) (h : target ≠ some account) :
    onAccount account (moveRunning charges target) = onAccount account charges := by
  rw [moveRunning]
  induction charges with
  | nil => rfl
  | cons charge charges ih =>
    rw [List.map_cons, onAccount, onAccount, List.filter_cons, List.filter_cons, ← onAccount,
      ← onAccount, ih]
    by_cases hcharge : charge.account = some .running
    · rw [if_pos hcharge, hcharge]
      simp [h, Ne.symm hrunning]
    · rw [if_neg hcharge]

theorem onAccount_moveRunning_self {charges : List Charge} {account : Account}
    (h : onAccount account charges = []) :
    onAccount account (moveRunning charges (some account)) =
      (onAccount .running charges).map fun charge => { charge with account := some account } := by
  rw [moveRunning]
  induction charges with
  | nil => rfl
  | cons charge charges ih =>
    rw [onAccount, List.filter_cons] at h
    split_ifs at h with hcharge
    rw [List.map_cons, onAccount, onAccount, List.filter_cons, List.filter_cons, ← onAccount,
      ← onAccount, ih h]
    by_cases hrun : charge.account = some .running
    · rw [if_pos hrun, hrun]
      simp
    · rw [if_neg hrun]
      simp [hrun, of_decide_eq_false (Bool.eq_false_iff.mpr hcharge)]

/-- A fact without kind and summary leaves what its key tells of a turn. -/
theorem record_spec (c : Conversation) (key : Bytes) {facts : List (Bytes × Json)}
    (hfacts : ∀ e ∈ facts, e.1 ≠ lit "kind" ∧ e.1 ≠ lit "summary") :
    ∀ k, k = lit "kind" ∨ k = lit "summary" → (c.mergedFacts key (.ofFields facts)).get? k =
      (Assoc.lookup key c.displayFacts).bind (·.get? k) := by
  intro k hk
  have hnone : (Json.ofFields facts).get? k = none := by
    refine get?_ofFields_of_ne fun e he => ?_
    rcases hk with rfl | rfl
    · exact (hfacts e he).1
    · exact (hfacts e he).2
  rw [Conversation.get?_mergedFacts (Json.keyed_ofFields facts), hnone, Option.none_or]

section Accounts

variable [DoubleSum]

/-- A fact tells what it was opened with and what was charged to it, and is
the summary of the turns charged. -/
structure FactAccount (charges : List Charge) (opened : List (Bytes × Json)) (key : Bytes)
    (value : Json) : Prop where
  usage : UsageTally (((Assoc.lookup key opened).map summaryUsage).toList ++
    (onAccount (.fact key) charges).map (·.usage)) (summaryUsage value)
  statistics : StatisticsTally (((Assoc.lookup key opened).map summaryStatistics).toList ++
    (onAccount (.fact key) charges).filterMap (·.statistics)) (summaryStatistics value)
  turn : ∀ charge ∈ onAccount (.fact key) charges, isSummaryOf charge.turn value = true

/-- A fact that is no summary holds nothing. -/
theorem FactAccount.new {charges : List Charge} {opened : List (Bytes × Json)} {key : Bytes}
    {value : Json} (hon : onAccount (.fact key) charges = [])
    (hopened : Assoc.lookup key opened = none) (hsummary : value.get? (lit "summary") = none) :
    FactAccount charges opened key value := by
  have hfact : factSummary value = .obj [] := by
    rw [factSummary, jsonValue, hsummary]
    rfl
  refine ⟨?_, ?_, ?_⟩
  · rw [hon, hopened, summaryUsage, hfact]
    exact Tally.zero.idle
  · rw [hon, hopened, summaryStatistics, hfact]
    exact Tally.zero
  · rw [hon]
    exact fun charge hcharge => absurd hcharge List.not_mem_nil

/-- A fact with the same kind and summary holds the same. -/
theorem FactAccount.congr {charges : List Charge} {opened : List (Bytes × Json)} {key : Bytes}
    {value value' : Json} (h : FactAccount charges opened key value)
    (hobject : value'.isObject = true) (hkind : value'.get? (lit "kind") = value.get? (lit "kind"))
    (hsummary : value'.get? (lit "summary") = value.get? (lit "summary")) :
    FactAccount charges opened key value' := by
  have hfact : factSummary value' = factSummary value := by
    rw [factSummary, factSummary, jsonValue, jsonValue, hsummary]
  refine ⟨?_, ?_, fun charge hcharge => ?_⟩
  · rw [summaryUsage, hfact]
    exact h.usage
  · rw [summaryStatistics, hfact]
    exact h.statistics
  · have hturn := h.turn charge hcharge
    have hvalue : value.isObject = true := by
      simp only [isSummaryOf, Bool.and_eq_true] at hturn
      exact hturn.1.1
    rw [isSummaryOf_congr (hobject.trans hvalue.symm) hkind (by rw [hfact])]
    exact hturn

/-- **The accounts of turns are their charges**: the running turn's, and those
of the summaries that are left. -/
structure Accounts (a : UsageAccounts) : Prop where
  ordered : a.conversation.FactsOrdered
  current : ∀ usage, a.current = some usage →
    UsageTally ((onAccount .running a.charges).map (·.usage)) usage ∧
      StatisticsTally ((onAccount .running a.charges).filterMap (·.statistics))
        a.turnSideStatistics
  running : ∀ charge ∈ onAccount .running a.charges,
    a.current.isSome = true ∧ charge.turn = a.turnId.toInt
  entered : a.entered = true → a.current = none ∧ a.turnSideStatistics = .obj []
  side : a.turnSideStatistics.isObject = true
  facts : ∀ key value, Assoc.lookup key a.conversation.displayFacts = some value →
    FactAccount a.charges a.opened key value

namespace Accounts

variable {a : UsageAccounts}

theorem start {s : UsageAccounts} (h : s.Opened) : Accounts s := by
  obtain ⟨-, -, -, -, -, hcharges⟩ := h.records
  refine ⟨h.ordered, ?_, ?_, ?_, ?_, fun key value hlookup => ⟨?_, ?_, ?_⟩⟩
  · intro usage husage
    rw [h.idle.1] at husage
    exact absurd husage (by simp)
  · rw [hcharges]
    exact fun charge hcharge => absurd hcharge List.not_mem_nil
  · intro hentered
    rw [h.idle.2.1] at hentered
    exact absurd hentered (by simp)
  · rw [h.idle.2.2]
    rfl
  · rw [hcharges, h.opened, hlookup]
    exact .one _
  · rw [hcharges, h.opened, hlookup]
    exact .one _
  · rw [hcharges]
    exact fun charge hcharge => absurd hcharge List.not_mem_nil

/-- Charges that go to no fact leave the facts' accounts. -/
theorem facts_append (h : Accounts a) {charges : List Charge}
    (hnone : ∀ key, onAccount (.fact key) charges = []) {key : Bytes} {value : Json}
    (hlookup : Assoc.lookup key a.conversation.displayFacts = some value) :
    FactAccount (a.charges ++ charges) a.opened key value := by
  obtain ⟨husage, hstatistics, hturn⟩ := h.facts key value hlookup
  have heq : onAccount (.fact key) (a.charges ++ charges) = onAccount (.fact key) a.charges := by
    rw [onAccount_append, hnone, List.append_nil]
  exact ⟨heq ▸ husage, heq ▸ hstatistics, heq ▸ hturn⟩

/-- The running turn is charged, and nothing else. -/
theorem of_running (h : Accounts a) {b : UsageAccounts} (charges : List Charge)
    (merged : Usage → Usage)
    (hfacts : b.conversation.displayFacts = a.conversation.displayFacts)
    (hopened : b.opened = a.opened) (hturn : b.turnId = a.turnId) (hentered : b.entered = a.entered)
    (hcharges : b.charges = a.charges ++ charges)
    (hall : ∀ charge ∈ charges, charge.account = some .running ∧
      charge.turn = a.turnId.toInt ∧ a.current.isSome = true)
    (hcurrent : b.current = a.current.map merged)
    (husage : ∀ reports usage, a.current = some usage → UsageTally reports usage →
      UsageTally (reports ++ charges.map (·.usage)) (merged usage))
    (hstatistics : ∀ reports, StatisticsTally reports a.turnSideStatistics →
      StatisticsTally (reports ++ charges.filterMap (·.statistics)) b.turnSideStatistics)
    (hidle : a.current = none → b.turnSideStatistics = a.turnSideStatistics)
    (hside : b.turnSideStatistics.isObject = true) : Accounts b := by
  have hon : onAccount .running charges = charges := by
    rw [onAccount, List.filter_eq_self]
    exact fun charge hcharge => decide_eq_true (hall charge hcharge).1
  refine ⟨⟨?_, ?_⟩, ?_, ?_, ?_, hside, ?_⟩
  · rw [hfacts]
    exact h.ordered.sorted
  · rw [hfacts]
    exact h.ordered.keyed
  · intro usage' husage'
    rw [hcurrent] at husage'
    obtain ⟨usage, hsome, rfl⟩ := Option.map_eq_some_iff.mp husage'
    obtain ⟨htally, hside⟩ := h.current usage hsome
    rw [hcharges, onAccount_append, hon, List.map_append, List.filterMap_append]
    exact ⟨husage _ usage hsome htally, hstatistics _ hside⟩
  · intro charge hcharge
    rw [hcharges, onAccount_append, hon] at hcharge
    rw [hcurrent, hturn, Option.isSome_map]
    rcases List.mem_append.mp hcharge with hcharge | hcharge
    · exact h.running charge hcharge
    · exact ⟨(hall charge hcharge).2.2, (hall charge hcharge).2.1⟩
  · rw [hentered, hcurrent]
    intro hent
    obtain ⟨hnone, hempty⟩ := h.entered hent
    rw [hidle hnone, hnone]
    exact ⟨rfl, hempty⟩
  · intro key value hlookup
    rw [hfacts] at hlookup
    rw [hcharges, hopened]
    refine h.facts_append (fun key => ?_) hlookup
    rw [onAccount, List.filter_eq_nil_iff]
    intro charge hcharge
    rw [(hall charge hcharge).1]
    simp

/-- A response is charged. -/
theorem response (h : Accounts a) (value : Json) (route : Bytes) (toTurn : Bool) :
    Accounts (a.accountModelUsage value route toTurn) := by
  rw [accountModelUsage]
  generalize ({} : Usage).add value = usage
  by_cases hcharged : (toTurn && a.current.isSome) = true
  · have hsome : a.current.isSome = true := (Bool.and_eq_true_iff.mp hcharged).2
    simp only [if_pos hcharged, chargesTo, List.filter_cons, decide_true, if_true, List.filter_nil,
      List.map_cons, List.map_nil]
    refine h.of_running
      [{ turn := a.turnId.toInt, usage := usage, account := some .running }]
      (fun u => u.merge usage) rfl rfl rfl rfl rfl ?_ rfl
      (fun reports u _ htally => htally.snoc usage) ?_ (fun _ => rfl) h.side
    · intro charge hcharge
      rw [List.mem_singleton.mp hcharge]
      exact ⟨rfl, rfl, hsome⟩
    · intro reports htally
      exact (List.append_nil reports).symm ▸ htally
  · simp only [if_neg hcharged, chargesTo, List.filter_cons, reduceCtorEq, decide_false,
      Bool.false_eq_true, if_false, List.filter_nil, List.map_nil]
    refine h.of_running [] id rfl rfl rfl rfl rfl
      (fun charge hcharge => absurd hcharge List.not_mem_nil) ?_
      (fun reports u _ htally => (List.append_nil reports).symm ▸ htally)
      (fun reports htally => (List.append_nil reports).symm ▸ htally) (fun _ => rfl) h.side
    rw [Option.map_id]
    rfl

/-- The running turn is charged with its part of a batch. -/
theorem chargeBatch (h : Accounts a) (hheld : HeldReports a.waiting a.side) :
    Accounts a.chargeBatch := by
  set running := a.side.turns.filter fun e => a.isRunning e.1
  have hrunning : ∀ e ∈ running, e ∈ a.side.turns ∧ a.current.isSome = true ∧
      e.1 = a.turnId.toInt := by
    intro e he
    obtain ⟨hmem, hrun⟩ := List.mem_filter.mp he
    simp only [isRunning, Bool.and_eq_true, decide_eq_true_eq] at hrun
    exact ⟨hmem, hrun⟩
  have husages : ∀ e ∈ running, UsageTally
      ((chargesTo (some .running) e.1 a.waiting).map (·.usage)) e.2 := by
    intro e he
    rw [usage_chargesTo]
    exact hheld.turn_tally (hrunning e he).1
  have hstatistics : ∀ e ∈ running, StatisticsTally
      ((chargesTo (some .running) e.1 a.waiting).filterMap (·.statistics))
      (a.side.statisticsOf e.1) := by
    intro e _
    rw [statistics_chargesTo]
    exact hheld.turnStatistics e.1
  refine h.of_running (running.flatMap fun e => chargesTo (some .running) e.1 a.waiting)
    (fun usage => running.foldl (fun usage e => usage.merge e.2) usage)
    ?_ ?_ ?_ ?_ ?_ ?_ ?_ ?_ ?_ ?_ ?_
  · rw [Totals.chargeBatch_conversation]
  · rfl
  · rfl
  · rfl
  · rfl
  · intro charge hcharge
    obtain ⟨e, he, hcharge⟩ := List.mem_flatMap.mp hcharge
    obtain ⟨-, hsome, hturn⟩ := hrunning e he
    obtain ⟨r, -, rfl⟩ := List.mem_map.mp hcharge
    exact ⟨rfl, hturn, hsome⟩
  · rfl
  · intro reports usage _ htally
    rw [List.map_flatMap]
    exact htally.foldl husages
  · intro reports htally
    rw [List.filterMap_flatMap]
    exact htally.foldl hstatistics
  · intro hnone
    have hempty : running = [] := by
      rw [List.filter_eq_nil_iff]
      intro e he hrun
      rw [isRunning, hnone] at hrun
      exact absurd hrun (by simp)
    show running.foldl _ a.turnSideStatistics = _
    rw [hempty]
    rfl
  · have hfold : ∀ (turns : List (Int × Usage)) (statistics : Json),
        statistics.isObject = true → (turns.foldl (fun statistics e =>
          mergeNumericStatistics statistics (a.side.statisticsOf e.1)) statistics).isObject =
            true := by
      intro turns
      induction turns with
      | nil => exact fun _ hobject => hobject
      | cons e turns ih => exact fun _ _ => ih _ (isObject_mergeNumericStatistics _ _)
    exact hfold running _ h.side

/-- Charges that go to no running turn, and the facts they leave. -/
theorem of_facts (h : Accounts a) {c : Conversation} {charges : List Charge}
    {opened : List (Bytes × Json)} (hordered : c.FactsOrdered)
    (hrunning : onAccount .running charges = onAccount .running a.charges)
    (hfacts : ∀ key value, Assoc.lookup key c.displayFacts = some value →
      FactAccount charges opened key value) :
    Accounts { a with conversation := c, charges := charges, opened := opened } where
  ordered := hordered
  current usage husage := by
    show UsageTally ((onAccount .running charges).map _) usage ∧
      StatisticsTally ((onAccount .running charges).filterMap _) a.turnSideStatistics
    rw [hrunning]
    exact h.current usage husage
  running charge hcharge := by
    rw [show onAccount .running charges = _ from hrunning] at hcharge
    exact h.running charge hcharge
  entered := h.entered
  side := h.side
  facts := hfacts

/-- Charges without an account leave every account. -/
theorem of_missed (h : Accounts a) (turn : Int) (reports : List UsageReport) :
    Accounts { a with charges := a.charges ++ chargesTo none turn reports } := by
  have hnone : ∀ account, onAccount account (chargesTo none turn reports) = [] := by
    intro account
    rw [onAccount_chargesTo, if_neg (by simp)]
  refine h.of_facts h.ordered ?_ fun key value hlookup => h.facts_append (fun _ => hnone _) hlookup
  rw [onAccount_append, hnone, List.append_nil]

/-- The fact `UpdateTurnSideUsage` finds is there, and is a summary of the
turn. -/
theorem summaryOf_spec (h : Accounts a) {turn : Int} {key : Bytes} {value : Json}
    (hfound : a.conversation.summaryOf turn = some (key, value)) :
    Assoc.lookup key a.conversation.displayFacts = some value ∧
      isSummaryOf turn value = true := by
  rw [Conversation.summaryOf] at hfound
  have hsummary := List.find?_some hfound
  exact ⟨Assoc.lookup_of_mem h.ordered.sorted (List.mem_of_find?_eq_some hfound), hsummary⟩

/-- **A summary is amended** with what is charged to it. -/
theorem amend (h : Accounts a) {turn : Int} (hturn : 0 < turn) {key : Bytes} {value : Json}
    (hfound : a.conversation.summaryOf turn = some (key, value)) {usage : Usage} {statistics : Json}
    (hrecords : a.conversation.records key (amendedFact value usage statistics) = true)
    {reports : List UsageReport} (husage : UsageTally (usagesAt (·.turn) turn reports) usage)
    (hstatistics : StatisticsTally (statisticsAt (some turn) reports) statistics) :
    Accounts { a with
      conversation := a.conversation.recordDisplay key (amendedFact value usage statistics)
      charges := a.charges ++ chargesTo (some (.fact key)) turn reports } := by
  obtain ⟨hlookup, hsummary⟩ := h.summaryOf_spec hfound
  have hobject : value.isObject = true := by
    simp only [isSummaryOf, Bool.and_eq_true] at hsummary
    exact hsummary.1.1
  have hkeyed := h.ordered.keyed _ (Assoc.mem_of_lookup hlookup) hobject
  refine h.of_facts (h.ordered.recordDisplay (hkeyed.set _ _)) ?_ ?_
  · rw [onAccount_append, onAccount_chargesTo, if_neg (by simp), List.append_nil]
  · intro name found hname
    rcases Conversation.lookup_of_recordDisplay hname with ⟨rfl, -, rfl⟩ | ⟨hne, hname⟩
    · -- the fact that is amended
      obtain ⟨hspent, hside, hnumber⟩ :=
        amended_spec h.ordered hlookup hsummary hturn usage statistics
      obtain ⟨hheld, hheldStatistics, hheldTurn⟩ := h.facts name value hlookup
      have hon : onAccount (.fact name)
          (a.charges ++ chargesTo (some (.fact name)) turn reports) =
            onAccount (.fact name) a.charges ++ chargesTo (some (.fact name)) turn reports := by
        rw [onAccount_append, onAccount_chargesTo, if_pos rfl]
      refine ⟨?_, ?_, ?_⟩
      · rw [hon, List.map_append, usage_chargesTo, ← List.append_assoc, hspent]
        exact .view rfl (hheld.add husage)
      · rw [hon, List.filterMap_append, statistics_chargesTo, ← List.append_assoc, hside]
        exact hheldStatistics.add hstatistics
      · rw [hon]
        intro charge hcharge
        rw [hnumber]
        rcases List.mem_append.mp hcharge with hcharge | hcharge
        · exact hheldTurn charge hcharge
        · rw [turn_of_mem_chargesTo hcharge]
          exact hsummary
    · -- every other
      have hother : name ≠ key := fun heq => by
        rw [hne heq] at hrecords
        exact absurd hrecords (by simp)
      obtain ⟨hheld, hheldStatistics, hheldTurn⟩ := h.facts name found hname
      have hon : onAccount (.fact name)
          (a.charges ++ chargesTo (some (.fact key)) turn reports) =
            onAccount (.fact name) a.charges := by
        rw [onAccount_append, onAccount_chargesTo, if_neg (by simpa using Ne.symm hother),
          List.append_nil]
      exact ⟨hon ▸ hheld, hon ▸ hheldStatistics, hon ▸ hheldTurn⟩

/-- `UpdateTurnSideUsage`. -/
theorem update (h : Accounts a) {turn : Int} {usage : Usage} {statistics : Json}
    {reports : List UsageReport} (husage : UsageTally (usagesAt (·.turn) turn reports) usage)
    (hstatistics : StatisticsTally (statisticsAt (some turn) reports) statistics) :
    Accounts (a.updateTurnSideUsage turn usage statistics reports) := by
  rw [updateTurnSideUsage, accountOf]
  by_cases hturn : turn ≤ 0
  · rw [if_pos hturn, if_pos hturn]
    exact h.of_missed turn reports
  · rw [if_neg hturn, if_neg hturn]
    rcases hfound : a.conversation.summaryOf turn with - | ⟨key, value⟩
    · exact h.of_missed turn reports
    · dsimp only
      by_cases hrecords :
          a.conversation.records key (amendedFact value usage statistics) = true
      · rw [if_pos hrecords]
        exact h.amend (Int.not_le.mp hturn) hfound hrecords husage hstatistics
      · rw [if_neg hrecords, Conversation.recordDisplay_eq, if_neg hrecords]
        exact h.of_missed turn reports

/-! #### Facts that take a key -/

/-- Accounts of the facts a recorded one leaves. -/
theorem forget_facts (h : Accounts a) {key name : Bytes} {value : Json} (hne : name ≠ key)
    (hlookup : Assoc.lookup name a.conversation.displayFacts = some value) :
    FactAccount (a.forget key).charges (a.forget key).opened name value := by
  obtain ⟨husage, hstatistics, hturn⟩ := h.facts name value hlookup
  have hon : onAccount (.fact name) (a.forget key).charges = onAccount (.fact name) a.charges := by
    rw [onAccount_forget, if_neg (by simpa using hne)]
  have hopened : Assoc.lookup name (a.forget key).opened = Assoc.lookup name a.opened := by
    rw [forget, Assoc.lookup_erase, if_neg hne]
  refine ⟨?_, ?_, ?_⟩
  · rwa [hon, hopened]
  · rwa [hon, hopened]
  · rwa [hon]

/-- **The running turn's account becomes the fact of its summary.** -/
theorem finish (h : Accounts a) {usage : Usage} (hcurrent : a.current = some usage)
    (directTools directModels : Int) {rest : List (Bytes × Json)}
    (hrest : ∀ e ∈ rest, e.1 ≠ lit "background_statistics") (root stamp : Bytes) :
    Accounts (a.finishTurn usage directTools directModels rest root stamp) := by
  set c := a.conversation
  set key := displayName c.nextDisplayId
  set summary := turnSummary a.turnId usage a.turnSideStatistics directTools directModels rest
  set entry := Conversation.entryFacts c.nextDisplayId (summaryEntry root summary) stamp
  obtain ⟨hkeyed, hkind, hmember⟩ := summaryEntry_spec c.nextDisplayId root stamp summary
  obtain ⟨husage, hside, hturn⟩ :=
    get?_turnSummary a.turnId usage h.side directTools directModels hrest
  have hentered : a.entered = true → False := fun hent => by
    have hnone := (h.entered hent).1
    rw [hcurrent] at hnone
    exact absurd hnone (by simp)
  have hmint : c.mint.FactsOrdered := ⟨h.ordered.sorted, h.ordered.keyed⟩
  have hordered : (c.mint.recordDisplay key entry).FactsOrdered := hmint.recordDisplay hkeyed
  rw [finishTurn, recordEntry_summary]
  by_cases hrecords : c.records key entry = true
  · rw [if_pos hrecords, if_pos hrecords]
    have hgone : onAccount .running (moveRunning (a.forget key).charges (some (.fact key))) = [] :=
      onAccount_moveRunning_running _ (by simp)
    refine ⟨hordered, fun _ hnone => absurd hnone (by simp), ?_, fun hent => (hentered hent).elim,
      h.side, ?_⟩
    · rw [show onAccount .running (moveRunning (a.forget key).charges _) = _ from hgone]
      exact fun charge hcharge => absurd hcharge List.not_mem_nil
    · intro name value hlookup
      rcases Conversation.lookup_of_recordDisplay hlookup with ⟨rfl, -, rfl⟩ | ⟨hne, hlookup⟩
      · -- the summary of the turn
        have hget : ∀ k v, entry.get? k = some v → (c.mint.mergedFacts key entry).get? k = some v := by
          intro k v hv
          rw [Conversation.get?_mergedFacts hkeyed, hv]
          rfl
        have hfact := factSummary_of_get? (hget _ _ hmember)
        obtain ⟨htally, hstatistics⟩ := h.current usage hcurrent
        have hon : onAccount (.fact key) (moveRunning (a.forget key).charges (some (.fact key))) =
            (onAccount .running a.charges).map fun charge =>
              { charge with account := some (.fact key) } := by
          rw [onAccount_moveRunning_self (by rw [onAccount_forget, if_pos rfl]), onAccount_forget,
            if_neg (by simp)]
        have hopened : Assoc.lookup key (a.forget key).opened = none := by
          rw [forget, Assoc.lookup_erase, if_pos rfl]
        refine ⟨?_, ?_, ?_⟩
        · rw [hon, hopened, List.map_map, summaryUsage, hfact, jsonValue, husage]
          exact .view rfl htally
        · rw [hon, hopened, List.filterMap_map, summaryStatistics, hfact, hside]
          exact hstatistics
        · rw [hon]
          intro charge hcharge
          obtain ⟨charged, hcharged, rfl⟩ := List.mem_map.mp hcharge
          have hobject : (c.mint.mergedFacts key entry).isObject = true :=
            (Conversation.keyed_mergedFacts hmint hkeyed).isObject
          have hnumber : jsonValueInt64 summary (lit "turn") 0 = a.turnId.toInt :=
            jsonValueInt64_turn hturn
          rw [isSummaryOf, hobject, jsonValueStr, hget _ _ hkind, hfact, hnumber,
            (h.running charged hcharged).2]
          simp
      · -- every other
        have hother : name ≠ key := fun heq => by
          have hfalse : c.records key entry = false := hne heq
          rw [hrecords] at hfalse
          exact absurd hfalse (by simp)
        have hfact := h.forget_facts hother hlookup
        have hon : onAccount (.fact name) (moveRunning (a.forget key).charges (some (.fact key))) =
            onAccount (.fact name) (a.forget key).charges :=
          onAccount_moveRunning_ne _ (by simp) (by simpa using Ne.symm hother)
        exact ⟨by rw [hon]; exact hfact.usage, by rw [hon]; exact hfact.statistics,
          by rw [hon]; exact hfact.turn⟩
  · -- a summary that outgrows its fact is not kept, nor what was charged to it
    have hmintRecords : c.mint.records key entry = false := Bool.eq_false_iff.mpr hrecords
    rw [if_neg hrecords, if_neg hrecords, Conversation.recordDisplay_eq,
      if_neg (by rw [hmintRecords]; simp)]
    have hgone : onAccount .running (moveRunning a.charges none) = [] :=
      onAccount_moveRunning_running _ (by simp)
    refine ⟨hmint, fun _ hnone => absurd hnone (by simp), ?_, fun hent => (hentered hent).elim,
      h.side, ?_⟩
    · rw [show onAccount .running (moveRunning a.charges _) = _ from hgone]
      exact fun charge hcharge => absurd hcharge List.not_mem_nil
    · intro name value hlookup
      have hfact := h.facts name value hlookup
      have hon : onAccount (.fact name) (moveRunning a.charges none) =
          onAccount (.fact name) a.charges := onAccount_moveRunning_ne _ (by simp) (by simp)
      exact ⟨by rw [hon]; exact hfact.usage, by rw [hon]; exact hfact.statistics,
        by rw [hon]; exact hfact.turn⟩

/-- A fact that is no summary is recorded. -/
theorem record (h : Accounts a) (key : Bytes) {facts : List (Bytes × Json)}
    (hfacts : ∀ e ∈ facts, e.1 ≠ lit "kind" ∧ e.1 ≠ lit "summary") :
    Accounts (a.recordFact key (.ofFields facts)) := by
  have hkeyed := Json.keyed_ofFields facts
  have hordered : (a.conversation.recordDisplay key (.ofFields facts)).FactsOrdered :=
    h.ordered.recordDisplay hkeyed
  have hmerged := record_spec a.conversation key hfacts
  rw [recordFact]
  cases hfound : Assoc.lookup key a.conversation.displayFacts with
  | none =>
    rw [Option.isNone_none, if_pos rfl]
    have hrunning : onAccount .running (a.forget key).charges = onAccount .running a.charges := by
      rw [onAccount_forget, if_neg (by simp)]
    refine h.of_facts hordered hrunning fun name value hlookup => ?_
    rcases Conversation.lookup_of_recordDisplay hlookup with ⟨rfl, -, rfl⟩ | ⟨-, hlookup⟩
    · refine .new ?_ ?_ ?_
      · rw [onAccount_forget, if_pos rfl]
      · rw [forget, Assoc.lookup_erase, if_pos rfl]
      · have hsummary := hmerged (lit "summary") (.inr rfl)
        rw [hfound] at hsummary
        exact hsummary
    · have hthere : Assoc.lookup name a.conversation.displayFacts = some value := hlookup
      refine h.forget_facts (fun hname => ?_) hthere
      rw [hname, hfound] at hthere
      exact absurd hthere (by simp)
  | some existing =>
    rw [Option.isNone_some, if_neg (by simp)]
    refine h.of_facts hordered rfl fun name value hlookup => ?_
    rcases Conversation.lookup_of_recordDisplay hlookup with ⟨rfl, -, rfl⟩ | ⟨-, hlookup⟩
    · refine (h.facts name existing hfound).congr ?_ ?_ ?_
      · exact (Conversation.keyed_mergedFacts h.ordered hkeyed).isObject
      · rw [hmerged (lit "kind") (.inl rfl), hfound]
        rfl
      · rw [hmerged (lit "summary") (.inr rfl), hfound]
        rfl
    · exact h.facts name value hlookup

end Accounts

end Accounts

/-! ### Every report of a turn is charged once -/

/-- What a report comes to for its turn. -/
def attribution (r : UsageReport) : Option (Int × Usage × Option Json) :=
  r.turn.map fun turn => (turn, r.usage, r.statistics)

/-- What charges come to for their turns, whatever their accounts. -/
def attributed (charges : List Charge) : List (Int × Usage × Option Json) :=
  charges.map fun charge => (charge.turn, charge.usage, charge.statistics)

theorem attributed_append (xs ys : List Charge) :
    attributed (xs ++ ys) = attributed xs ++ attributed ys := List.map_append ..

theorem attributed_chargesTo (target : Option Account) (turn : Int) (reports : List UsageReport) :
    attributed (chargesTo target turn reports) =
      (reports.filter fun r => r.turn = some turn).filterMap attribution := by
  rw [attributed, chargesTo, List.map_map]
  induction reports with
  | nil => rfl
  | cons r reports ih =>
    by_cases hturn : r.turn = some turn
    · simp [attribution, hturn, ih]
    · simp [hturn, ih]

theorem attributed_forget (a : UsageAccounts) (key : Bytes) :
    attributed (a.forget key).charges = attributed a.charges := by
  show attributed (a.charges.map _) = _
  rw [attributed, List.map_map]
  refine List.map_congr_left fun charge _ => ?_
  rw [Function.comp_apply]
  split_ifs <;> rfl

theorem attributed_moveRunning (charges : List Charge) (target : Option Account) :
    attributed (moveRunning charges target) = attributed charges := by
  rw [attributed, moveRunning, List.map_map]
  refine List.map_congr_left fun charge _ => ?_
  rw [Function.comp_apply]
  split_ifs <;> rfl

section Run

variable [DoubleSum]

/-- Every report that names a turn is charged to it once, or waits. -/
def Charged (a : UsageAccounts) : Prop :=
  (attributed a.charges ++
    (a.waiting ++ a.ledger.flatMap entryReports).filterMap attribution).Perm
      (a.reported.filterMap attribution)

/-- The accounts are right: the totals, the turns, and that each report
reached them once. -/
structure Accounted (s a : UsageAccounts) : Prop where
  totals : Totals s a
  accounts : Accounts a
  charged : Charged a

/-- The turns a batch amends, one after another. -/
theorem foldl_update (waiting : List UsageReport) (side : AccumulatedUsage)
    (turns : List (Int × Usage)) (b : UsageAccounts) :
    let c := turns.foldl
      (fun b e => b.updateTurnSideUsage e.1 e.2 (side.statisticsOf e.1) waiting) b
    c = { b with conversation := c.conversation, charges := c.charges } ∧
      c.conversation.statistics = b.conversation.statistics ∧
      attributed c.charges = attributed b.charges ++
        turns.flatMap fun e => (waiting.filter fun r => r.turn = some e.1).filterMap attribution := by
  induction turns generalizing b with
  | nil => exact ⟨rfl, rfl, (List.append_nil _).symm⟩
  | cons e turns ih =>
    obtain ⟨hframe, hstatistics, hcharges⟩ :=
      ih (b.updateTurnSideUsage e.1 e.2 (side.statisticsOf e.1) waiting)
    refine ⟨hframe, hstatistics.trans ?_, ?_⟩
    · rw [updateTurnSideUsage]
      dsimp only
      split_ifs
      · rfl
      · split
        · exact Conversation.statistics_recordDisplay _ _ _
        · rfl
    · rw [List.foldl_cons, hcharges, List.flatMap_cons, ← List.append_assoc]
      refine congrArg (· ++ _) ?_
      rw [updateTurnSideUsage, attributed_append, attributed_chargesTo]

namespace Accounted

variable {s a : UsageAccounts}

theorem start (h : s.Opened) : Accounted s s := by
  refine ⟨.start h, .start h, ?_⟩
  obtain ⟨hreported, hwaiting, -, -, -, hcharges⟩ := h.records
  rw [Charged, hcharges, hwaiting, h.ledger, hreported]
  exact .refl _

/-- A response is charged. -/
theorem response (h : Accounted s a) (value : Json) (route : Bytes) (toTurn : Bool) :
    Accounted s (a.accountModelUsage value route toTurn) := by
  refine ⟨h.totals.response value route toTurn, h.accounts.response value route toTurn, ?_⟩
  rw [accountModelUsage]
  generalize ({} : Usage).add value = usage
  show (attributed (a.charges ++ _) ++ _).Perm ((a.reported ++ [_]).filterMap attribution)
  rw [attributed_append, attributed_chargesTo, @List.filterMap_append _ _ a.reported [_], List.append_assoc]
  refine .trans ?_ (h.charged.append_right _)
  rw [List.append_assoc]
  refine List.Perm.append_left _ (List.perm_append_comm.trans (List.Perm.append_left _ ?_))
  refine .of_eq ?_
  split_ifs <;> simp [attribution]

/-- What waits in the accumulator or the ledger. -/
theorem of_waiting (h : Accounted s a) {b : UsageAccounts} {r : List UsageReport}
    (htotals : Totals s b) (haccounts : Accounts a → Accounts b) (hcharges : b.charges = a.charges)
    (hreported : b.reported = a.reported ++ r)
    (hwaiting : (b.waiting ++ b.ledger.flatMap entryReports).Perm
      (a.waiting ++ a.ledger.flatMap entryReports ++ r)) : Accounted s b := by
  refine ⟨htotals, haccounts h.accounts, ?_⟩
  rw [Charged, hcharges, hreported, List.filterMap_append (l := a.reported)]
  refine ((hwaiting.filterMap _).append_left _).trans ?_
  rw [List.filterMap_append, ← List.append_assoc]
  exact h.charged.append_right _

theorem side (h : Accounted s a) (r : UsageReport) : Accounted s (a.addSide r) := by
  refine h.of_waiting (h.totals.side r) (fun haccounts => { haccounts with }) rfl rfl ?_
  show ((a.waiting ++ [r]) ++ a.ledger.flatMap entryReports).Perm _
  rw [List.append_assoc, List.append_assoc]
  exact List.perm_append_comm.append_left _

theorem child (h : Accounted s a) (entry : Json) : Accounted s (a.report entry) := by
  refine h.of_waiting (h.totals.child entry) (fun haccounts => { haccounts with }) rfl rfl ?_
  show (a.waiting ++ (a.ledger ++ [entry]).flatMap entryReports).Perm _
  rw [List.flatMap_append, List.flatMap_singleton, List.append_assoc]

theorem drain (h : Accounted s a) : Accounted s a.drainChildUsage := by
  refine h.of_waiting h.totals.drain (fun haccounts => { haccounts with }) rfl
    (List.append_nil _).symm ?_
  show ((a.waiting ++ a.ledger.flatMap entryReports) ++ []).Perm _
  exact .refl _

/-- The turns of a batch are charged with all that waited for a turn. -/
theorem batch_perm {waiting : List UsageReport} {side : AccumulatedUsage} (h : HeldReports waiting side)
    (p : Int × Usage → Bool) :
    ((side.turns.filter p).flatMap (fun e =>
        (waiting.filter fun r => r.turn = some e.1).filterMap attribution) ++
      (side.turns.filter fun e => !p e).flatMap fun e =>
        (waiting.filter fun r => r.turn = some e.1).filterMap attribution).Perm
      (waiting.filterMap attribution) := by
  rw [← List.flatMap_append]
  refine ((List.filter_append_perm p side.turns).flatMap_right _).trans ?_
  rw [← List.filterMap_flatMap]
  refine ((HeldReports.flatMap_found h.turnsSorted h.turns).filterMap attribution).trans (.of_eq ?_)
  rw [List.filterMap_filter]
  refine List.filterMap_congr fun r _ => ?_
  rw [attribution]
  cases r.turn <;> rfl

/-- **A batch is charged once**, to the session and to its turns. -/
theorem account [LawfulDoubleSum] (h : Accounted s a) (readable : Bool) :
    Accounted s (a.accountSideUsage readable) := by
  rw [accountSideUsage]
  have hdrained : Accounted s (if readable then a.drainChildUsage else a) := by
    split_ifs
    · exact h.drain
    · exact h
  generalize (if readable = true then a.drainChildUsage else a) = a at hdrained
  have hheld := hdrained.totals.held
  set others := a.side.turns.filter fun e => !a.isRunning e.1 with hothers
  obtain ⟨hframe, hstatistics, hcharges⟩ :=
    foldl_update a.waiting a.side others a.chargeBatch
  have hbatch := hdrained.totals.chargeBatch
  refine ⟨?_, ?_, ?_⟩
  · rw [hframe]
    exact { hbatch with statistics := hstatistics ▸ hbatch.statistics }
  · -- turn by turn, each with the usage that waited for it
    have hfold : ∀ (turns : List (Int × Usage)) (b : UsageAccounts), Accounts b →
        (∀ e ∈ turns, e ∈ a.side.turns) →
        Accounts (turns.foldl (fun b e =>
          b.updateTurnSideUsage e.1 e.2 (a.side.statisticsOf e.1) a.waiting) b) := by
      intro turns
      induction turns with
      | nil => exact fun b hb _ => hb
      | cons e turns ih =>
        intro b hb hmem
        refine ih _ (hb.update (hheld.turn_tally (hmem e List.mem_cons_self))
          (hheld.turnStatistics e.1)) ?_
        exact fun e' he' => hmem e' (List.mem_cons_of_mem _ he')
    exact hfold others _ (hdrained.accounts.chargeBatch hheld)
      fun e he => (List.mem_filter.mp he).1
  · rw [Charged, hframe]
    have hrunning : attributed a.chargeBatch.charges = attributed a.charges ++
        (a.side.turns.filter fun e => a.isRunning e.1).flatMap fun e =>
          (a.waiting.filter fun r => r.turn = some e.1).filterMap attribution := by
      rw [chargeBatch, attributed_append, attributed, attributed, List.map_flatMap]
      exact congrArg _ (List.flatMap_congr fun e _ => attributed_chargesTo _ _ _)
    show (attributed (others.foldl _ a.chargeBatch).charges ++
      ([] ++ a.ledger.flatMap entryReports).filterMap attribution).Perm _
    rw [hcharges, hrunning, List.nil_append, List.append_assoc (attributed a.charges)]
    refine (((batch_perm hheld _).append_left _).append_right _).trans ?_
    rw [List.append_assoc, ← List.filterMap_append]
    exact hdrained.charged

/-- What touches neither the totals nor the reports. -/
theorem of_frame (h : Accounted s a) {b : UsageAccounts} (haccounts : Accounts b)
    (hframe : b = { a with
      conversation := b.conversation, charges := b.charges, opened := b.opened
      current := b.current, entered := b.entered, turnId := b.turnId
      turnSideStatistics := b.turnSideStatistics })
    (hstatistics : b.conversation.statistics = a.conversation.statistics)
    (hcharges : attributed b.charges = attributed a.charges) : Accounted s b := by
  refine ⟨?_, haccounts, ?_⟩
  · rw [hframe]
    exact { h.totals with statistics := hstatistics ▸ h.totals.statistics }
  · rw [Charged, hcharges, hframe]
    exact h.charged

theorem finish (h : Accounted s a) {usage : Usage} (hcurrent : a.current = some usage)
    (directTools directModels : Int) {rest : List (Bytes × Json)}
    (hrest : ∀ e ∈ rest, e.1 ≠ lit "background_statistics") (root stamp : Bytes) :
    Accounted s (a.finishTurn usage directTools directModels rest root stamp) := by
  refine h.of_frame (h.accounts.finish hcurrent directTools directModels hrest root stamp) ?_ ?_ ?_
  · rw [finishTurn]
    split_ifs <;> rfl
  · rw [finishTurn, recordEntry_summary]
    exact Conversation.statistics_recordDisplay _ _ _
  · rw [finishTurn]
    show attributed (moveRunning _ _) = _
    rw [attributed_moveRunning]
    split_ifs
    · exact attributed_forget a _
    · rfl

theorem record (h : Accounted s a) (key : Bytes) {facts : List (Bytes × Json)}
    (hfacts : ∀ e ∈ facts, e.1 ≠ lit "kind" ∧ e.1 ≠ lit "summary") :
    Accounted s (a.recordFact key (.ofFields facts)) := by
  refine h.of_frame (h.accounts.record key hfacts) ?_ ?_ ?_
  · rw [recordFact]
    split_ifs <;> rfl
  · rw [recordFact]
    refine (Conversation.statistics_recordDisplay _ _ _).trans ?_
    split_ifs <;> rfl
  · rw [recordFact]
    split_ifs
    · exact attributed_forget a key
    · rfl

/-- **Every step keeps the accounts.** -/
theorem step [LawfulDoubleSum] (h : Accounted s a) (event : UsageEvent) :
    Accounted s (a.step event) := by
  cases event with
  | response value route toTurn => exact h.response value route toTurn
  | spend usage => exact h.side _
  | spendOn route usage turn statistics => exact h.side _
  | child entry => exact h.child entry
  | account readable => exact h.account readable
  | turn =>
    rw [UsageAccounts.step]
    split_ifs with hcurrent
    · exact h
    · have hnone : a.current = none := by
        rwa [Bool.not_eq_true, Option.isSome_eq_false_iff, Option.isNone_iff_eq_none] at hcurrent
      refine h.of_frame ?_ rfl rfl rfl
      refine { h.accounts with current := ?_, running := ?_, entered := ?_, side := rfl }
      · intro usage husage
        rw [show a.current = some usage from husage] at hnone
        exact absurd hnone (by simp)
      · intro charge hcharge
        have hsome := (h.accounts.running charge hcharge).1
        exact absurd hsome hcurrent
      · exact fun _ => ⟨hnone, rfl⟩
  | execute =>
    rw [UsageAccounts.step]
    split_ifs with hentered
    · obtain ⟨hnone, hempty⟩ := h.accounts.entered hentered
      -- no charge went to a running turn, as there was none
      have hon : onAccount .running a.charges = [] := by
        rw [List.eq_nil_iff_forall_not_mem]
        intro charge hcharge
        have hsome := (h.accounts.running charge hcharge).1
        rw [hnone] at hsome
        exact absurd hsome (by simp)
      refine h.of_frame ?_ rfl rfl rfl
      refine { h.accounts with current := ?_, running := ?_, entered := ?_ }
      · rintro _ ⟨⟩
        show UsageTally ((onAccount .running a.charges).map _) _ ∧
          StatisticsTally ((onAccount .running a.charges).filterMap _) a.turnSideStatistics
        rw [hon, hempty]
        exact ⟨.zero, .zero⟩
      · intro charge hcharge
        rw [show onAccount .running a.charges = _ from hon] at hcharge
        exact absurd hcharge List.not_mem_nil
      · exact fun hfalse => absurd hfalse (by simp)
    · exact h
  | finish directTools directModels rest root stamp =>
    rw [UsageAccounts.step]
    rcases hcurrent : a.current with - | usage
    · exact h
    · dsimp only
      split_ifs with hrest
      · refine h.finish hcurrent directTools directModels (fun e he => ?_) root stamp
        exact of_decide_eq_true (List.all_eq_true.mp hrest e he)
      · exact h
  | record key facts =>
    rw [UsageAccounts.step]
    split_ifs with hfacts
    · refine h.record key fun e he => ?_
      have hmember := List.all_eq_true.mp hfacts e he
      simp only [Bool.and_eq_true, decide_eq_true_eq] at hmember
      exact hmember
    · exact h
  | count delta =>
    refine ⟨{ h.totals with statistics := ?_ }, { h.accounts with ordered := ?_ }, h.charged⟩
    · refine (h.totals.statistics.snoc delta).perm ?_
      show (_ :: a.own ++ _ ++ [delta]).Perm (_ :: (a.own ++ [delta]) ++ _)
      rw [← List.cons_append, List.append_assoc, List.append_assoc]
      exact List.perm_append_comm.append_left _
    · exact ⟨h.accounts.ordered.sorted, h.accounts.ordered.keyed⟩

end Accounted

/-- A run of the agent. -/
def run (s : UsageAccounts) (events : List UsageEvent) : UsageAccounts :=
  events.foldl UsageAccounts.step s

theorem Accounted.run [LawfulDoubleSum] {s : UsageAccounts} (h : s.Opened)
    (events : List UsageEvent) : Accounted s (s.run events) := by
  have hfold : ∀ (events : List UsageEvent) (a : UsageAccounts), Accounted s a →
      Accounted s (a.run events) := by
    intro events
    induction events with
    | nil => exact fun a ha => ha
    | cons event events ih => exact fun a ha => ih _ (ha.step event)
  exact hfold events s (.start h)

end Run

/-! ### Saturation aside -/

/-- A counter over some reports. -/
def sumOf (f : Usage → Int) (reports : List UsageReport) : Int :=
  (reports.map fun r => max (f r.usage) 0).sum

theorem sumOf_append (f : Usage → Int) (xs ys : List UsageReport) :
    sumOf f (xs ++ ys) = sumOf f xs + sumOf f ys := by
  rw [sumOf, List.map_append, List.sum_append]
  rfl

theorem sumOf_nonneg (f : Usage → Int) (reports : List UsageReport) : 0 ≤ sumOf f reports := by
  refine List.sum_nonneg fun n hn => ?_
  obtain ⟨r, -, rfl⟩ := List.mem_map.mp hn
  exact le_max_right _ _

theorem sumOf_perm (f : Usage → Int) {xs ys : List UsageReport} (h : xs.Perm ys) :
    sumOf f xs = sumOf f ys := (h.map _).sum_eq

/-- A part is not above the whole. -/
theorem sumOf_filter_le (f : Usage → Int) (p : UsageReport → Bool) (reports : List UsageReport) :
    sumOf f (reports.filter p) ≤ sumOf f reports := by
  rw [← sumOf_perm f (List.filter_append_perm p reports), sumOf_append]
  exact Int.le_add_of_nonneg_right (sumOf_nonneg f _)

/-- The reports with a route are those of the routes. -/
theorem sumOf_routes (f : Usage → Int) {names : List Bytes} (hnames : names.Nodup)
    {reports : List UsageReport}
    (hall : ∀ r ∈ reports, ∀ route, r.route = some route → route ∈ names) :
    (names.map fun route => sumOf f (reports.filter fun r => r.route = some route)).sum =
      sumOf f (reports.filter fun r => r.route.isSome) := by
  have hflat : ∀ (names : List Bytes) (g : Bytes → List UsageReport),
      sumOf f (names.flatMap g) = (names.map fun route => sumOf f (g route)).sum := by
    intro names g
    induction names with
    | nil => rfl
    | cons name names ih => rw [List.flatMap_cons, sumOf_append, ih, List.map_cons, List.sum_cons]
  have hperm := List.flatMap_filter_perm (·.route) (hnames.map (Option.some_injective Bytes)) reports
  rw [List.flatMap_map] at hperm
  rw [← hflat, sumOf_perm f hperm]
  refine congrArg _ (List.filter_congr fun r hr => ?_)
  cases hroute : r.route with
  | none => simp
  | some route => simpa using hall r hr route hroute

section Settled

variable [DoubleSum]

/-- **When a batch has been charged**, nothing waits; and as long as no counter
saturates, the session has counted every report, and the routes all but the
reports that name none. -/
structure Settled (s a : UsageAccounts) : Prop where
  waiting : a.waiting = []
  ledger : a.ledger = []
  session : ∀ f ∈ Usage.counters,
    max (f s.sessionUsage) 0 + sumOf f a.reported < int64Max →
      max (f a.sessionUsage) 0 = max (f s.sessionUsage) 0 + sumOf f a.reported
  routes : ∀ f ∈ Usage.counters, ∀ names : List Bytes, names.Nodup →
    (∀ r ∈ a.reported, ∀ route, r.route = some route → route ∈ names) →
    max (f s.sessionUsage) 0 + sumOf f a.reported < int64Max →
    (∀ route ∈ names, max (f (s.usageOf route)) 0 + sumOf f a.reported < int64Max) →
      max (f a.sessionUsage) 0 - max (f s.sessionUsage) 0 =
        (names.map fun route =>
          max (f (a.usageOf route)) 0 - max (f (s.usageOf route)) 0).sum +
          sumOf f (a.reported.filter fun r => r.route = none)

variable {s a : UsageAccounts}

/-- Batches without usage have none to count. -/
theorem Totals.sumOf_uncounted (h : Totals s a) {f : Usage → Int} (hf : f ∈ Usage.counters) :
    sumOf f a.uncounted = 0 := by
  refine List.sum_eq_zero fun n hn => ?_
  obtain ⟨r, hr, rfl⟩ := List.mem_map.mp hn
  have hnone := h.uncounted r hr
  have hzero : f (({} : Usage).merge r.usage) = 0 := by
    simp only [hasUsage, Bool.or_eq_false_iff, decide_eq_false_iff_not, not_not] at hnone
    obtain ⟨⟨⟨⟨⟨⟨h1, h2⟩, h3⟩, h4⟩, h5⟩, h6⟩, -⟩ := hnone
    simp only [Usage.counters, List.mem_cons, List.not_mem_nil, or_false] at hf
    rcases hf with rfl | rfl | rfl | rfl | rfl | rfl
    · exact h1
    · exact h2
    · exact h3
    · exact h4
    · exact h5
    · exact h6
  have hempty := (usageCounter hf).zero
  have hmax : int64Max = 2 ^ 63 - 1 := rfl
  rw [Usage.counter_merge hf, saturatingNonnegativeAdd_eq, hempty] at hzero
  omega

/-- A counter of a total that does not saturate. -/
theorem counter_eq {reports : List Usage} {start total : Usage}
    (h : UsageTally (start :: reports) total) {f : Usage → Int} (hf : f ∈ Usage.counters)
    (hroom : max (f start) 0 + (reports.map fun u => max (f u) 0).sum < int64Max) :
    max (f total) 0 = max (f start) 0 + (reports.map fun u => max (f u) 0).sum := by
  have hcounter := h.counter (usageCounter hf)
  rw [List.map_cons, List.sum_cons] at hcounter
  omega

/-- What an account that has charged everything comes to. -/
theorem Totals.settled (h : Totals s a) (hwaiting : a.waiting = []) (hledger : a.ledger = []) :
    Settled s a := by
  have hperm : (a.counted ++ a.uncounted).Perm a.reported := by
    have hreports := h.reports
    rwa [hwaiting, hledger, List.append_nil, List.flatMap_nil, List.append_nil] at hreports
  have hcounted : ∀ f ∈ Usage.counters, sumOf f a.reported = sumOf f a.counted := by
    intro f hf
    rw [← sumOf_perm f hperm, sumOf_append, h.sumOf_uncounted hf, add_zero]
  have hsession : ∀ f ∈ Usage.counters,
      max (f s.sessionUsage) 0 + sumOf f a.reported < int64Max →
        max (f a.sessionUsage) 0 = max (f s.sessionUsage) 0 + sumOf f a.reported := by
    intro f hf hroom
    have hsum : (a.counted.map (·.usage)).map (fun u => max (f u) 0) =
        a.counted.map fun r => max (f r.usage) 0 := List.map_map ..
    have heq := counter_eq h.session hf (by rw [hsum]; rwa [hcounted f hf] at hroom)
    rw [hsum] at heq
    rw [heq, hcounted f hf]
    rfl
  refine ⟨hwaiting, hledger, hsession, ?_⟩
  intro f hf names hnames hall hroom hrooms
  have hroute : ∀ route ∈ names, max (f (a.usageOf route)) 0 - max (f (s.usageOf route)) 0 =
      sumOf f (a.reported.filter fun r => r.route = some route) := by
    intro route hmem
    have hsum : (usagesAt (·.route) route (a.counted ++ a.uncounted)).map (fun u => max (f u) 0) =
        ((a.counted ++ a.uncounted).filter fun r => r.route = some route).map fun r =>
          max (f r.usage) 0 := List.map_map ..
    have hpart : sumOf f ((a.counted ++ a.uncounted).filter fun r => r.route = some route) =
        sumOf f (a.reported.filter fun r => r.route = some route) :=
      sumOf_perm f (hperm.filter _)
    have hle := sumOf_filter_le f (fun r => r.route = some route) a.reported
    have heq := counter_eq (h.routes route) hf (by
      rw [hsum]
      have := hrooms route hmem
      exact lt_of_le_of_lt (Int.add_le_add_left (hpart.trans_le hle) _) this)
    rw [hsum] at heq
    rw [heq, ← hpart]
    exact add_sub_cancel_left _ _
  rw [hsession f hf hroom, add_sub_cancel_left,
    List.map_congr_left fun route hmem => hroute route hmem, sumOf_routes f hnames hall,
    ← sumOf_append]
  refine (sumOf_perm f ?_).symm
  refine (List.filter_append_filter_perm fun r _ hr => ?_).trans (.of_eq ?_)
  · cases hcase : r.route with
    | none => rw [hcase] at hr; exact absurd hr (by simp)
    | some route => simp
  · rw [List.filter_eq_self]
    intro r _
    cases r.route <;> rfl

/-- A child's statistics stand on one of its records, however many routes its
usage spans. -/
theorem entryReports_statistics (entry usage : Json) (h : entry.get? (lit "usage") = some usage) :
    ∃ n, (entryReports entry).filterMap (·.statistics) =
      sideStatistics (jsonValue entry (lit "statistics") (.obj [])) ::
        List.replicate n (.obj []) := by
  rw [entryReports, h]
  dsimp only
  split
  · rename_i route value routes _
    refine ⟨routes.length, ?_⟩
    have hrest : ∀ (turn : Int) (routes : List (Bytes × Json)),
        (routes.map fun e => UsageReport.ofRoute e.1 (usageFromJson e.2) turn (.obj [])).filterMap
          (·.statistics) = List.replicate routes.length (.obj []) := by
      intro turn routes
      induction routes with
      | nil => rfl
      | cons e routes ih =>
        rw [List.map_cons, List.length_cons, List.replicate_succ, ← ih]
        rfl
    rw [← hrest (jsonValueInt64 entry (lit "parent_turn") 0) routes]
    rfl
  · exact ⟨0, rfl⟩

end Settled

end UsageAccounts

end UAgent
