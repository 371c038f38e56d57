/-
UAgent/Core/Usage.lean

Token and cost accounting (src/core/usage.cc): what a conversation has used,
how it is saved, and counters as JSON objects, which may hold values of any
type and are added group by group.

Adding two doubles is a parameter, `DoubleSum`, since nothing here depends
on how the sum is rounded.
-/
import UAgent.Core.Json

namespace UAgent

open Bytes

/-- The sum of two doubles, capped at the largest finite one: as a counter
adds them (`std::min(max, a + b)`), and as a cost does
(`a > max - b ? max : a + b`). -/
class DoubleSum where
  cappedSum : Double → Double → Double
  costSum : Double → Double → Double

/-- Sums that can be evaluated: right where one of the two is zero. -/
@[reducible] def zeroSum : DoubleSum where
  cappedSum a b := if a.bits = 0 then b else a
  costSum a b := if a.bits = 0 then b else a

/-! ### Reading a counter -/

def int64Max : Int := 2 ^ 63 - 1

/-- `Nonnegative`. -/
def nonnegative (value : Int) : Int := if 0 < value then value else 0

/-- `SaturatingNonnegativeAdd`. -/
def saturatingNonnegativeAdd (left right : Int) : Int :=
  min (nonnegative left + nonnegative right) int64Max

/-- `NonnegativeJsonInteger`. -/
def nonnegativeJsonInteger : Json → Int
  | .uint n => min n.toNat int64Max
  | .int n => nonnegative n.toInt
  | _ => 0

/-- `NumericStatistic`. -/
def numericStatistic (object : Json) (key : Bytes) : Int :=
  match object.get? key with
  | some value => nonnegativeJsonInteger value
  | none => 0

/-- `JsonValue(object, key, double)` with 0.0 as the fallback. -/
def jsonValueDouble (object : Json) (key : Bytes) : Double :=
  match object.get? key with
  | some (.float x) => x
  | some (.int n) => .ofInt n.toInt
  | some (.uint n) => .ofNat n.toNat
  | _ => ⟨0⟩

/-- `std::isfinite(x) && x >= 0`. -/
def finiteNonnegative (x : Double) : Bool := x.isFinite && x.bits ≤ 0x8000000000000000

/-! ### Adding counters -/

/-- `is_number()`. -/
def isNumber : Json → Bool
  | .int _ | .uint _ | .float _ => true
  | _ => false

/-- A number a counter may grow by: finite and not below zero. -/
def countable : Json → Bool
  | .uint _ => true
  | .int n => 0 ≤ n.toInt
  | .float x => finiteNonnegative x
  | _ => false

section Merge

variable [DoubleSum]

mutual

/-- `MergeNumericStatistics`. -/
def mergeNumericStatistics (total : Json) : Json → Json
  | .obj fields => mergeFields (if total.isObject then total else .obj []) fields
  | _ => if total.isObject then total else .obj []

/-- The loop over the members of the delta. -/
def mergeFields (total : Json) : List (Bytes × Json) → Json
  | [] => total
  | (key, value) :: fields =>
    let merged :=
      match value with
      | .obj _ =>
        -- A group of counters, such as calls per provider, merges the same way.
        total.set key (mergeNumericStatistics ((total.get? key).getD .null) value)
      | .float x =>
        -- The total is read under `key.c_str()`, which ends at a NUL.
        if countable value && key ≠ lit "complete" then
          total.set key
            (.float (DoubleSum.cappedSum (jsonValueDouble total (untilFirst 0 key)) x))
        else total
      | value =>
        if countable value && key ≠ lit "complete" then
          total.set key (.int (Int64.ofInt (saturatingNonnegativeAdd (numericStatistic total key)
            (nonnegativeJsonInteger value))))
        else total
    mergeFields merged fields

end

end Merge

/-! ### Usage -/

/-- `Usage`. -/
structure Usage where
  input : Int := 0
  output : Int := 0
  cacheRead : Int := 0
  reasoning : Int := 0
  cost : Double := ⟨0⟩
  costReported : Bool := false
  cacheWrite : Int := 0
  webSearches : Int := 0
deriving DecidableEq

/-- `RouteUsage`: by route, in the order of the routes. -/
abbrev RouteUsage := List (Bytes × Usage)

namespace Usage

/-- `GeneratedTokens`. -/
def generatedTokens (u : Usage) : Int := saturatingNonnegativeAdd u.output u.reasoning

/-- `PromptTokens`. -/
def promptTokens (u : Usage) : Int :=
  saturatingNonnegativeAdd (saturatingNonnegativeAdd u.input u.cacheRead) u.cacheWrite

/-- `NormalizeCost`. -/
def normalizeCost (u : Usage) : Usage :=
  if finiteNonnegative u.cost then u else { u with cost := ⟨0⟩, costReported := false }

section Merge

variable [DoubleSum]

/-- `MergeCost`. -/
def mergeCost (u : Usage) (addition : Double) (reported : Bool) : Usage :=
  let u := u.normalizeCost
  if !finiteNonnegative addition then u
  else
    { u with
      cost := DoubleSum.costSum u.cost addition
      costReported := u.costReported || reported }

/-- `Merge`. -/
def merge (u other : Usage) : Usage :=
  mergeCost
    { u with
      input := saturatingNonnegativeAdd u.input other.input
      output := saturatingNonnegativeAdd u.output other.output
      cacheRead := saturatingNonnegativeAdd u.cacheRead other.cacheRead
      cacheWrite := saturatingNonnegativeAdd u.cacheWrite other.cacheWrite
      reasoning := saturatingNonnegativeAdd u.reasoning other.reasoning
      webSearches := saturatingNonnegativeAdd u.webSearches other.webSearches }
    other.cost other.costReported

end Merge

end Usage

section UsageText

variable [DoubleSum]

/-- `UsageJson`. -/
def usageJson (usage : Usage) : Json :=
  let normalized := ({} : Usage).merge usage
  .ofFields [(lit "input", .int (Int64.ofInt normalized.input)),
    (lit "output", .int (Int64.ofInt normalized.output)),
    (lit "cache_read", .int (Int64.ofInt normalized.cacheRead)),
    (lit "cache_write", .int (Int64.ofInt normalized.cacheWrite)),
    (lit "reasoning", .int (Int64.ofInt normalized.reasoning)),
    (lit "cost", .float normalized.cost),
    (lit "cost_reported", .bool normalized.costReported),
    (lit "web_searches", .int (Int64.ofInt normalized.webSearches))]

/-- `UsageFromJson`. -/
def usageFromJson (value : Json) : Usage :=
  if !value.isObject then {}
  else
    let cost := jsonValueDouble value (lit "cost")
    ({} : Usage).merge
      { input := jsonValueInt64 value (lit "input") 0
        output := jsonValueInt64 value (lit "output") 0
        cacheRead := jsonValueInt64 value (lit "cache_read") 0
        cacheWrite := jsonValueInt64 value (lit "cache_write") 0
        reasoning := jsonValueInt64 value (lit "reasoning") 0
        cost := cost
        costReported := jsonValueBool value (lit "cost_reported") (!cost.eqv ⟨0⟩)
        webSearches := jsonValueInt64 value (lit "web_searches") 0 }

/-- `RouteUsageJson`. -/
def routeUsageJson (routes : RouteUsage) : Json :=
  .ofFields (routes.map fun e => (e.1, usageJson e.2))

/-- `RouteUsageFromJson`. -/
def routeUsageFromJson (value : Json) : RouteUsage :=
  match value with
  | .obj fields => fields.foldl (fun routes e => Assoc.insert e.1 (usageFromJson e.2) routes) []
  | _ => []

end UsageText

/-! ### A provider's report -/

/-- `HasUsage`. -/
def hasUsage (u : Usage) : Bool :=
  u.input ≠ 0 || u.output ≠ 0 || u.cacheRead ≠ 0 || u.cacheWrite ≠ 0 || u.reasoning ≠ 0 ||
    u.webSearches ≠ 0 || u.costReported

/-- The first count that is not zero, of those a report may spell it as: a
member of the report, or of an object in it. -/
def firstCount (value : Json) : List (Option String × String) → Int
  | [] => 0
  | (parent, field) :: aliases =>
    let scope := parent.elim (some value) fun name => jsonObject value (lit name)
    let found := scope.elim 0 fun object => jsonValueInt64 object (lit field) 0
    if found ≠ 0 then found else firstCount value aliases

namespace Usage

variable [DoubleSum]

/-- `Normalize`. -/
def normalize (u : Usage) : Usage :=
  { u with
    input := nonnegative u.input
    output := nonnegative u.output
    cacheRead := nonnegative u.cacheRead
    cacheWrite := nonnegative u.cacheWrite
    reasoning := nonnegative u.reasoning
    webSearches := nonnegative u.webSearches }.normalizeCost

/-- `Add`: a provider's usage block. -/
def add (u : Usage) (value : Json) : Usage :=
  if !value.isObject then u
  else
    let u := u.normalize
    let inputTokens := nonnegative
      (firstCount value [(none, "prompt_tokens"), (none, "input_tokens")])
    let outputTokens := nonnegative
      (firstCount value [(none, "completion_tokens"), (none, "output_tokens")])
    let reason := nonnegative (firstCount value
      [(some "completion_tokens_details", "reasoning_tokens"),
        (some "output_tokens_details", "reasoning_tokens"),
        (some "output_tokens_details", "thinking_tokens")])
    -- Cached tokens inside the prompt total are taken out of it; an
    -- Anthropic-style report has them beside an input that excludes them.
    let nestedCache := nonnegative (firstCount value
      [(some "prompt_tokens_details", "cached_tokens"),
        (some "input_tokens_details", "cached_tokens")])
    let cache := if nestedCache ≠ 0 then nestedCache
      else nonnegative (jsonValueInt64 value (lit "cache_read_input_tokens") 0)
    let nestedWrite := nonnegative (firstCount value
      [(some "prompt_tokens_details", "cache_write_tokens"),
        (some "prompt_tokens_details", "cache_creation_tokens"),
        (some "input_tokens_details", "cache_write_tokens")])
    let cacheWriteTokens := if nestedWrite ≠ 0 then nestedWrite
      else nonnegative (firstCount value
        [(some "cache_details", "cache_write_tokens"), (none, "cache_write_tokens"),
          (none, "cache_creation_input_tokens")])
    let u :=
      { u with
        input := saturatingNonnegativeAdd u.input
          (nonnegative (nonnegative (inputTokens - nestedCache) - nestedWrite))
        output := saturatingNonnegativeAdd u.output (nonnegative (outputTokens - reason))
        cacheRead := saturatingNonnegativeAdd u.cacheRead cache
        cacheWrite := saturatingNonnegativeAdd u.cacheWrite cacheWriteTokens
        reasoning := saturatingNonnegativeAdd u.reasoning reason }
    let u := if ((value.get? (lit "cost")).elim false isNumber) then
      u.mergeCost (jsonValueDouble value (lit "cost")) true else u
    let tools := (jsonObject value (lit "server_tool_use_details")).or
      (jsonObject value (lit "server_tool_use"))
    match tools with
    | some tools =>
      { u with
        webSearches := saturatingNonnegativeAdd u.webSearches
          (jsonValueInt64 tools (lit "web_search_requests") 0) }
    | none => u

end Usage

/-! ### Statistics of other agents -/

section Rename

variable [DoubleSum]

/-- The numbers of `statistics` under other names, added up where two get the
same one. -/
def renameStatistics (rename : Bytes → Bytes) : Json → Json
  | .obj fields =>
    fields.foldl (fun result e =>
      if !isNumber e.2 || e.1 = lit "complete" then result
      else mergeNumericStatistics result (.obj [(rename e.1, e.2)])) (.obj [])
  | _ => .obj []

/-- `PrefixNumericStatistics`. -/
def prefixNumericStatistics (tag : Bytes) (statistics : Json) : Json :=
  renameStatistics (fun key => if tag.isPrefixOf key then key else tag ++ key) statistics

/-- `FlattenNumericStatistics`. -/
def flattenNumericStatistics (tag : Bytes) (statistics : Json) : Json :=
  renameStatistics (fun key => if tag.isPrefixOf key then key.drop tag.length else key) statistics

end Rename

end UAgent
