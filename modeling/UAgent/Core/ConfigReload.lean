/-
UAgent/Core/ConfigReload.lean

Settings that are read again at a turn boundary (`ConfigManager::Reload`,
src/core/effective_config.cc, with `RuntimeConfig::ApplyTurnReload` and
`DifferentKeys`): what applies at the next turn is applied, and the rest is
listed as needing a restart.

Settings bound to a field are compared with the configuration in use, the
others only with the previous reload, and each reload replaces the list.
`restart_required_exact` says in which runs the list is exact all the same.
-/
import UAgent.Base.Json
import UAgent.Base.Run
import Mathlib.Data.List.Nodup

namespace UAgent

open Bytes

/-! ### The registry -/

/-- What a reload asks of a `ConfigDescriptor`. -/
structure ConfigDescriptor where
  environment : Bytes
  /-- Its `RuntimeConfig` member; empty for a setting that is read on use. -/
  field : Bytes
  /-- `ReloadPolicy::kNextUserTurn`; any other setting needs a restart. -/
  nextUserTurn : Bool
deriving DecidableEq

/-- The settings, each named once. -/
structure ConfigRegistry where
  rows : List ConfigDescriptor
  nodup : (rows.map (·.environment)).Nodup

namespace ConfigRegistry

def findConfigDescriptor (registry : ConfigRegistry) (name : Bytes) : Option ConfigDescriptor :=
  registry.rows.find? (·.environment = name)

def runtimeConfigField (registry : ConfigRegistry) (environment : Bytes) : Bytes :=
  match registry.findConfigDescriptor environment with
  | some descriptor => descriptor.field
  | none => []

/-- The settings that `ForEachBinding` visits. -/
def bindings (registry : ConfigRegistry) : List ConfigDescriptor :=
  registry.rows.filter fun row => !row.field.isEmpty

end ConfigRegistry

/-! ### Configurations -/

/-- `RuntimeConfig::Values`: the merged text of each setting, in key order. -/
abbrev SettingTexts := List (Bytes × Bytes)

/-- A `RuntimeConfig`, by the names of the settings bound to its members. -/
abbrev RuntimeConfig := Bytes → Json

section Config

variable (fieldValue : Bytes → Bytes → Json)

/-- `RuntimeConfig::FromValues`; `fieldValue` is what a member becomes for the
text of its setting, an absent one being empty. -/
def fromValues (values : SettingTexts) : RuntimeConfig := fun environment =>
  fieldValue environment ((Assoc.lookup environment values).getD [])

variable (registry : ConfigRegistry)

/-- What a turn boundary may replace. -/
def reloadable (row : ConfigDescriptor) : Bool := !row.field.isEmpty && row.nextUserTurn

def applyTurnReload (active next : RuntimeConfig) : RuntimeConfig × List Bytes :=
  (fun environment =>
    match registry.findConfigDescriptor environment with
    | some row => if reloadable row then next environment else active environment
    | none => active environment,
    (registry.bindings.filter fun row =>
      reloadable row && active row.environment ≠ next row.environment).map (·.field))

/-- The members whose shown values differ.  What `DiagnosticJson` adds to the
members is the same for both. -/
def differentKeys (configured active : RuntimeConfig) : List Bytes :=
  (registry.bindings.filter fun row =>
    configured row.environment ≠ active row.environment).map (·.field)

end Config

/-! ### The manager -/

theorem noSettings_sorted : Assoc.Sorted ([] : SettingTexts) := List.Pairwise.nil

/-- What one `Read` of the settings gives. -/
structure ConfigSnapshot where
  values : SettingTexts := []
  stamp : Nat := 0
  error : Bytes := []
  sorted : Assoc.Sorted values := by exact noSettings_sorted

structure ConfigManager where
  current : ConfigSnapshot := {}
  deferred : List Bytes := []
  initialized : Bool := false

structure ConfigReload where
  active : RuntimeConfig
  applied : List Bytes
  deferred : List Bytes

/-- A `std::set` of names, as a list. -/
def nameSet (names : List Bytes) : List Bytes :=
  (names.foldl (fun set name => Assoc.insert name () set) []).map Prod.fst

/-- The keys whose text is another one, or none any more. -/
def changedKeys (old next : SettingTexts) : List Bytes :=
  (next.filter fun e => Assoc.lookup e.1 old ≠ some e.2).map Prod.fst ++
    (old.filter fun e => Assoc.lookup e.1 next = none).map Prod.fst

namespace ConfigRegistry

variable (registry : ConfigRegistry)

/-- A setting that is read on use from the published values. -/
def unbound (key : Bytes) : Bool := (registry.runtimeConfigField key).isEmpty

/-- An unbound setting that applies with the reload. -/
def unboundNextTurn (key : Bytes) : Bool :=
  match registry.findConfigDescriptor key with
  | some descriptor => descriptor.nextUserTurn
  | none => false

end ConfigRegistry

namespace ConfigManager

variable (registry : ConfigRegistry) (fieldValue : Bytes → Bytes → Json)

/-- `Initialize`, which reads the settings for the first time. -/
def initializeConfig (manager : ConfigManager) (read : ConfigSnapshot) : ConfigManager × RuntimeConfig :=
  ({ manager with current := read, initialized := true }, fromValues fieldValue read.values)

/-- `Reload`: `stamp` is the settings file's now, and `next` what a read of it
gives. -/
def reload (manager : ConfigManager) (stamp : Nat) (next : ConfigSnapshot) (active : RuntimeConfig) :
    ConfigManager × Option ConfigReload :=
  if manager.initialized && manager.current.error.isEmpty && stamp = manager.current.stamp then
    (manager, none)
  else if manager.initialized && !next.error.isEmpty then
    ({ manager with current := { manager.current with error := next.error } }, none)
  else if next.values = manager.current.values then ({ manager with current := next }, none)
  else
    let config := fromValues fieldValue next.values
    let turn := applyTurnReload registry active config
    let changed := (changedKeys manager.current.values next.values).filter registry.unbound
    let deferred := nameSet (differentKeys registry config turn.1 ++
      changed.filter fun key => !registry.unboundNextTurn key)
    ({ manager with current := next, deferred },
      some { active := turn.1, applied := turn.2 ++ changed.filter registry.unboundNextTurn, deferred })

end ConfigManager

/-! ### A session -/

/-- A session's settings: the manager, the configuration in use, and the texts
the session took at its start. -/
structure ConfigSession where
  manager : ConfigManager
  active : RuntimeConfig
  taken : SettingTexts

/-- A turn boundary: the file's stamp, and what a read would give. -/
structure TurnBoundary where
  stamp : Nat
  read : ConfigSnapshot

namespace ConfigSession

variable (registry : ConfigRegistry) (fieldValue : Bytes → Bytes → Json)

def start (read : ConfigSnapshot) : ConfigSession :=
  let (manager, active) := ConfigManager.initializeConfig fieldValue {} read
  { manager, active, taken := read.values }

/-- `ReloadConfigAtTurnBoundary`. -/
def reloadAtTurnBoundary (s : ConfigSession) (turn : TurnBoundary) : ConfigSession :=
  let (manager, reload) := s.manager.reload registry fieldValue turn.stamp turn.read s.active
  { s with manager, active := (reload.map (·.active)).getD s.active }

/-- A setting that waits for a restart: its value, as it was last read, is not
the one the session took. -/
def NeedsRestart (s : ConfigSession) (name : Bytes) : Prop :=
  (∃ row ∈ registry.bindings, row.nextUserTurn = false ∧ row.field = name ∧
      fromValues fieldValue s.manager.current.values row.environment ≠
        fromValues fieldValue s.taken row.environment) ∨
    (registry.unbound name = true ∧ registry.unboundNextTurn name = false ∧
      Assoc.lookup name s.manager.current.values ≠ Assoc.lookup name s.taken)

/-- `restart_required` lists them, and nothing else. -/
def ListsExactly (s : ConfigSession) : Prop :=
  ∀ name, name ∈ s.manager.deferred ↔ s.NeedsRestart registry fieldValue name

/-- A reload that will make a new list. -/
def TakesEffect (s : ConfigSession) (turn : TurnBoundary) : Prop :=
  ¬(s.manager.initialized && s.manager.current.error.isEmpty &&
      turn.stamp = s.manager.current.stamp) = true ∧
    turn.read.error = [] ∧ turn.read.values ≠ s.manager.current.values

/-- Of the settings that are read on use and need a restart, a reload finds
those changed since the last one that are not what the session took. -/
def Telling (s : ConfigSession) (turn : TurnBoundary) : Prop :=
  s.TakesEffect turn → ∀ key, registry.unbound key = true → registry.unboundNextTurn key = false →
    (Assoc.lookup key turn.read.values ≠ Assoc.lookup key s.manager.current.values ↔
      Assoc.lookup key turn.read.values ≠ Assoc.lookup key s.taken)

/-! ### What a reload lists -/

section Lemmas

variable {registry} {fieldValue}

theorem mem_nameSet {name : Bytes} {names : List Bytes} : name ∈ nameSet names ↔ name ∈ names := by
  have hall : ∀ set : List (Bytes × Unit),
      name ∈ (names.foldl (fun set name => Assoc.insert name () set) set).map Prod.fst ↔
        name ∈ set.map Prod.fst ∨ name ∈ names := by
    induction names with
    | nil => simp
    | cons other names ih =>
      intro set
      rw [List.foldl_cons, ih, Assoc.mem_keys_insert, List.mem_cons]
      tauto
  rw [nameSet, hall []]
  simp

/-- The changed keys are those with another text, or with one on one side only. -/
theorem mem_changedKeys {old next : SettingTexts} (hold : Assoc.Sorted old) (hnext : Assoc.Sorted next)
    {key : Bytes} : key ∈ changedKeys old next ↔ Assoc.lookup key next ≠ Assoc.lookup key old := by
  rw [changedKeys, List.mem_append]
  constructor
  · rintro (h | h)
    · obtain ⟨⟨k, text⟩, hmem, rfl⟩ := List.mem_map.mp h
      obtain ⟨hmem, hother⟩ := List.mem_filter.mp hmem
      rw [Assoc.lookup_of_mem hnext hmem]
      exact fun heq => of_decide_eq_true hother heq.symm
    · obtain ⟨⟨k, text⟩, hmem, rfl⟩ := List.mem_map.mp h
      obtain ⟨hmem, hnone⟩ := List.mem_filter.mp hmem
      rw [Assoc.lookup_of_mem hold hmem, of_decide_eq_true hnone]
      simp
  · intro h
    cases hkey : Assoc.lookup key next with
    | some text =>
      refine .inl (List.mem_map.mpr ⟨(key, text), List.mem_filter.mpr ⟨Assoc.mem_of_lookup hkey, ?_⟩, rfl⟩)
      exact decide_eq_true fun heq => h (hkey.trans heq.symm)
    | none =>
      cases hheld : Assoc.lookup key old with
      | none => exact absurd (hkey.trans hheld.symm) h
      | some text =>
        refine .inr (List.mem_map.mpr
          ⟨(key, text), List.mem_filter.mpr ⟨Assoc.mem_of_lookup hheld, ?_⟩, rfl⟩)
        exact decide_eq_true hkey

/-- Only settings that are in one of the three can make a reload untelling. -/
theorem telling_iff {s : ConfigSession} {turn : TurnBoundary} :
    s.Telling registry turn ↔ (s.TakesEffect turn →
      ∀ key ∈ (turn.read.values ++ s.manager.current.values ++ s.taken).map Prod.fst,
        registry.unbound key = true → registry.unboundNextTurn key = false →
          (Assoc.lookup key turn.read.values ≠ Assoc.lookup key s.manager.current.values ↔
            Assoc.lookup key turn.read.values ≠ Assoc.lookup key s.taken)) := by
  refine ⟨fun h heffect key _ => h heffect key, fun h heffect key hunbound hturn => ?_⟩
  by_cases hkey : key ∈ (turn.read.values ++ s.manager.current.values ++ s.taken).map Prod.fst
  · exact h heffect key hkey hunbound hturn
  · simp only [List.map_append, List.mem_append, not_or] at hkey
    rw [Assoc.lookup_eq_none.mpr hkey.1.1, Assoc.lookup_eq_none.mpr hkey.1.2,
      Assoc.lookup_eq_none.mpr hkey.2]

instance (s : ConfigSession) (turn : TurnBoundary) : Decidable (s.TakesEffect turn) := by
  unfold TakesEffect; infer_instance

instance (s : ConfigSession) (turn : TurnBoundary) : Decidable (s.Telling registry turn) :=
  decidable_of_iff _ telling_iff.symm

/-- A setting of the registry is found under its name. -/
theorem findConfigDescriptor_of_mem {row : ConfigDescriptor} (h : row ∈ registry.rows) :
    registry.findConfigDescriptor row.environment = some row := by
  cases hfind : registry.findConfigDescriptor row.environment with
  | none =>
    have hnot := List.find?_eq_none.mp hfind row h
    simp at hnot
  | some other =>
    have hname : other.environment = row.environment := by simpa using List.find?_some hfind
    have hsame := List.inj_on_of_nodup_map registry.nodup (List.mem_of_find?_eq_some hfind) h hname
    rw [hsame]

/-- A turn's reload replaces the members that may be, and those only. -/
theorem applyTurnReload_apply {active next : RuntimeConfig} {row : ConfigDescriptor}
    (h : row ∈ registry.bindings) :
    (applyTurnReload registry active next).1 row.environment =
      if row.nextUserTurn then next row.environment else active row.environment := by
  obtain ⟨hmem, hbound⟩ := List.mem_filter.mp h
  simp only [applyTurnReload, findConfigDescriptor_of_mem hmem, reloadable, hbound, Bool.true_and]

/-- After a turn's reload the members that differ are those that need a
restart. -/
theorem mem_differentKeys {active config : RuntimeConfig} {name : Bytes} :
    name ∈ differentKeys registry config (applyTurnReload registry active config).1 ↔
      ∃ row ∈ registry.bindings, row.nextUserTurn = false ∧ row.field = name ∧
        config row.environment ≠ active row.environment := by
  simp only [differentKeys, List.mem_map, List.mem_filter, decide_eq_true_eq]
  constructor
  · rintro ⟨row, ⟨hmem, hdiffers⟩, rfl⟩
    rw [applyTurnReload_apply hmem] at hdiffers
    cases hturn : row.nextUserTurn with
    | true => simp [hturn] at hdiffers
    | false => exact ⟨row, hmem, hturn, rfl, by simpa [hturn] using hdiffers⟩
  · rintro ⟨row, hmem, hturn, rfl, hdiffers⟩
    exact ⟨row, ⟨hmem, by simpa [applyTurnReload_apply hmem, hturn] using hdiffers⟩, rfl⟩

/-- What a reload that takes effect lists. -/
theorem mem_deferred_reload {s : ConfigSession} {turn : TurnBoundary} (h : s.TakesEffect turn)
    {name : Bytes} :
    name ∈ (s.reloadAtTurnBoundary registry fieldValue turn).manager.deferred ↔
      (∃ row ∈ registry.bindings, row.nextUserTurn = false ∧ row.field = name ∧
        fromValues fieldValue turn.read.values row.environment ≠ s.active row.environment) ∨
      (registry.unbound name = true ∧ registry.unboundNextTurn name = false ∧
        Assoc.lookup name turn.read.values ≠ Assoc.lookup name s.manager.current.values) := by
  obtain ⟨hread, hsound, hvalues⟩ := h
  have herror : ¬(s.manager.initialized && !turn.read.error.isEmpty) = true := by simp [hsound]
  simp only [reloadAtTurnBoundary, ConfigManager.reload, if_neg hread, if_neg herror, if_neg hvalues]
  rw [mem_nameSet, List.mem_append, mem_differentKeys, List.mem_filter, List.mem_filter,
    mem_changedKeys s.manager.current.sorted turn.read.sorted]
  refine or_congr_right ?_
  simp only [Bool.not_eq_true']
  tauto

/-- What a reload that takes effect puts in use. -/
theorem reloadAtTurnBoundary_of_takesEffect {s : ConfigSession} {turn : TurnBoundary}
    (h : s.TakesEffect turn) :
    (s.reloadAtTurnBoundary registry fieldValue turn).active =
        (applyTurnReload registry s.active (fromValues fieldValue turn.read.values)).1 ∧
      (s.reloadAtTurnBoundary registry fieldValue turn).manager.current = turn.read ∧
      (s.reloadAtTurnBoundary registry fieldValue turn).manager.initialized =
        s.manager.initialized := by
  obtain ⟨hread, hsound, hvalues⟩ := h
  have herror : ¬(s.manager.initialized && !turn.read.error.isEmpty) = true := by simp [hsound]
  simp only [reloadAtTurnBoundary, ConfigManager.reload, if_neg hread, if_neg herror, if_neg hvalues]
  exact ⟨rfl, trivial, trivial⟩

/-- A reload that takes no effect keeps the list, the values and the
configuration in use. -/
theorem reloadAtTurnBoundary_of_not {s : ConfigSession} {turn : TurnBoundary}
    (hready : s.manager.initialized = true) (h : ¬s.TakesEffect turn) :
    (s.reloadAtTurnBoundary registry fieldValue turn).manager.deferred = s.manager.deferred ∧
      (s.reloadAtTurnBoundary registry fieldValue turn).manager.current.values =
        s.manager.current.values ∧
      (s.reloadAtTurnBoundary registry fieldValue turn).active = s.active ∧
      (s.reloadAtTurnBoundary registry fieldValue turn).manager.initialized = true := by
  simp only [reloadAtTurnBoundary, ConfigManager.reload]
  split_ifs with hread herror hvalues
  · exact ⟨rfl, rfl, rfl, hready⟩
  · exact ⟨rfl, rfl, rfl, hready⟩
  · exact ⟨rfl, hvalues, rfl, hready⟩
  · refine absurd ⟨hread, ?_, hvalues⟩ h
    simpa [hready] using herror

/-! ### Runs -/

/-- A session whose list is exact, and whose restart settings are as taken. -/
structure Inv (registry : ConfigRegistry) (fieldValue : Bytes → Bytes → Json) (s : ConfigSession) :
    Prop where
  ready : s.manager.initialized = true
  exact : s.ListsExactly registry fieldValue
  kept : ∀ row ∈ registry.bindings, row.nextUserTurn = false →
    s.active row.environment = fromValues fieldValue s.taken row.environment

theorem start_inv (read : ConfigSnapshot) : (start fieldValue read).Inv registry fieldValue where
  ready := rfl
  exact name := by
    refine ⟨fun h => absurd h List.not_mem_nil, ?_⟩
    rintro (⟨row, -, -, -, hdiffers⟩ | ⟨-, -, hdiffers⟩) <;> exact absurd rfl hdiffers
  kept _ _ _ := rfl

theorem Inv.reload {s : ConfigSession} (h : s.Inv registry fieldValue) (turn : TurnBoundary)
    (htelling : s.Telling registry turn) :
    (s.reloadAtTurnBoundary registry fieldValue turn).Inv registry fieldValue := by
  have htaken : (s.reloadAtTurnBoundary registry fieldValue turn).taken = s.taken := rfl
  by_cases heffect : s.TakesEffect turn
  · obtain ⟨hactive, hcurrent, hready⟩ :=
      @reloadAtTurnBoundary_of_takesEffect registry fieldValue _ _ heffect
    refine ⟨hready.trans h.ready, fun name => ?_, fun row hmem hturn => ?_⟩
    · rw [mem_deferred_reload heffect, NeedsRestart, hcurrent, htaken]
      refine or_congr ?_ ?_
      · -- a member that needs a restart is in use as it was taken
        refine exists_congr fun row => and_congr_right fun hmem => and_congr_right fun hturn => ?_
        rw [h.kept row hmem hturn]
      · refine and_congr_right fun hunbound => and_congr_right fun hturn => ?_
        exact htelling heffect name hunbound hturn
    · rw [hactive, applyTurnReload_apply hmem, hturn, htaken]
      exact h.kept row hmem hturn
  · obtain ⟨hdeferred, hvalues, hactive, hready⟩ := @reloadAtTurnBoundary_of_not
      registry fieldValue _ _ h.ready heffect
    refine ⟨hready, fun name => ?_, fun row hmem hturn => ?_⟩
    · rw [hdeferred, NeedsRestart, hvalues, htaken]
      exact h.exact name
    · rw [hactive, htaken]
      exact h.kept row hmem hturn

end Lemmas

end ConfigSession

/-- In every run whose reloads are telling, `restart_required` is exact at every
turn: a setting changed and still different is listed, one set back is not. -/
theorem restart_required_exact (registry : ConfigRegistry) (fieldValue : Bytes → Bytes → Json)
    (read : ConfigSnapshot) {s : ConfigSession}
    (h : Run (ConfigSession.reloadAtTurnBoundary registry fieldValue)
      (ConfigSession.Telling registry) (ConfigSession.start fieldValue read) s) :
    s.ListsExactly registry fieldValue :=
  (h.invariant (ConfigSession.start_inv read) fun _ turn hinv htelling =>
    hinv.reload turn htelling).exact

/-- `kConfigRegistry`. -/
def kConfigRegistry : ConfigRegistry where
  rows := [
    ⟨lit "UAGENT_WEB_BIND", [], false⟩,
    ⟨lit "UAGENT_BROWSER_DATA", [], false⟩,
    ⟨lit "UAGENT_WEB_PORT", [], false⟩,
    ⟨lit "UAGENT_WEB_ORIGIN", [], false⟩,
    ⟨lit "UAGENT_WEB_PUSH_CONTACT", [], false⟩,
    ⟨lit "UAGENT_WEB_NOTIFICATION_DETAIL", [], false⟩,
    ⟨lit "UAGENT_WEB_TERMINAL", [], false⟩,
    ⟨lit "UAGENT_WEB_TERMINAL_IDLE_MINUTES", [], false⟩,
    ⟨lit "UAGENT_MODEL", [], false⟩,
    ⟨lit "UAGENT_REASONING_EFFORT", [], false⟩,
    ⟨lit "UAGENT_PROVIDERS", [], false⟩,
    ⟨lit "UAGENT_CONTEXT", [], false⟩,
    ⟨lit "UAGENT_MAX_TOKENS", [], true⟩,
    ⟨lit "UAGENT_STREAM_TIMEOUT", lit "stream_timeout_s", true⟩,
    ⟨lit "UAGENT_REQUEST_TIMEOUT", lit "request_timeout_s", true⟩,
    ⟨lit "UAGENT_MAX_STEPS", lit "max_steps", true⟩,
    ⟨lit "UAGENT_MAX_TOOL_CALLS", lit "max_tool_calls", true⟩,
    ⟨lit "UAGENT_REPEATED_CALL_STOP", [], true⟩,
    ⟨lit "UAGENT_MAX_TURN_SECONDS", lit "max_turn_seconds", true⟩,
    ⟨lit "UAGENT_MAX_TURN_TOKENS", lit "max_turn_tokens", true⟩,
    ⟨lit "UAGENT_SESSION_TOKEN_BUDGET", lit "session_token_budget", true⟩,
    ⟨lit "UAGENT_MAX_TURN_COST", lit "max_turn_cost", true⟩,
    ⟨lit "UAGENT_SESSION_BUDGET", lit "session_budget", true⟩,
    ⟨lit "UAGENT_TOOL_TIMEOUT", lit "tool_timeout_s", true⟩,
    ⟨lit "UAGENT_AUTO_COMPACT_PCT", [], true⟩,
    ⟨lit "UAGENT_TOOL_RESULT_CHARS", [], true⟩,
    ⟨lit "UAGENT_READ_FILE_LINES", [], true⟩,
    ⟨lit "UAGENT_READ_FILE_KB", [], false⟩,
    ⟨lit "UAGENT_EDIT_FILE_MB", [], true⟩,
    ⟨lit "UAGENT_LIST_ENTRIES", [], true⟩,
    ⟨lit "UAGENT_GREP_RESULTS", [], true⟩,
    ⟨lit "UAGENT_TOOL_CONCURRENCY", [], true⟩,
    ⟨lit "UAGENT_MAX_ACTIVITIES", [], true⟩,
    ⟨lit "UAGENT_ACTIVITY_LOG_MB", [], true⟩,
    ⟨lit "UAGENT_SANDBOX", [], false⟩,
    ⟨lit "UAGENT_SANDBOX_NET", [], false⟩,
    ⟨lit "UAGENT_SANDBOX_WRITE", [], false⟩,
    ⟨lit "UAGENT_SANDBOX_READ", [], false⟩,
    ⟨lit "UAGENT_SANDBOX_HIDE", [], false⟩,
    ⟨lit "UAGENT_SANDBOX_HIDE_ENV", [], true⟩,
    ⟨lit "UAGENT_SANDBOX_REVEAL", [], false⟩,
    ⟨lit "UAGENT_AGENTS_MAX", [], true⟩,
    ⟨lit "UAGENT_AGENTS_DEPTH", [], false⟩,
    ⟨lit "UAGENT_WEB_SEARCH_BACKEND", lit "web_search_backend", false⟩,
    ⟨lit "UAGENT_WEB_SEARCH_MODEL", lit "web_search_model", true⟩,
    ⟨lit "UAGENT_WEB_SEARCH_RESULTS", [], false⟩,
    ⟨lit "UAGENT_WEB_SEARCH_MAX_USES", [], false⟩,
    ⟨lit "UAGENT_WEB_SEARCH_CALLS", [], false⟩,
    ⟨lit "UAGENT_WEB_SEARCH_TIMEOUT", [], false⟩,
    ⟨lit "UAGENT_MEMORY", lit "memory_enabled", false⟩,
    ⟨lit "UAGENT_MEMORY_GENERATE", lit "memory_generate", false⟩,
    ⟨lit "UAGENT_MEMORY_MODEL", [], true⟩,
    ⟨lit "UAGENT_MEMORY_MAX", [], true⟩,
    ⟨lit "UAGENT_MEMORY_BYTES", [], true⟩,
    ⟨lit "UAGENT_MEMORY_ALWAYS_BYTES", [], false⟩,
    ⟨lit "UAGENT_MEMORY_IDLE_HOURS", [], true⟩,
    ⟨lit "UAGENT_SKILL_PATH", [], false⟩,
    ⟨lit "UAGENT_SKILL_EXCLUDE", [], false⟩,
    ⟨lit "UAGENT_OTHER_AGENTS", [], false⟩,
    ⟨lit "UAGENT_SKILLS_MAX", [], false⟩,
    ⟨lit "UAGENT_INSTRUCTIONS_KB", [], false⟩,
    ⟨lit "UAGENT_MCP_TIMEOUT", lit "mcp_timeout_s", false⟩,
    ⟨lit "UAGENT_MCP_MAX_SERVERS", [], false⟩,
    ⟨lit "UAGENT_MCP_MAX_TOOLS", [], false⟩,
    ⟨lit "UAGENT_IMAGE_MODEL", lit "image_model", true⟩,
    ⟨lit "UAGENT_ATTACHMENT_MB", [], true⟩,
    ⟨lit "UAGENT_ATTACHMENT_COUNT", [], true⟩,
    ⟨lit "UAGENT_IMAGE_MAX_PX", [], true⟩,
    ⟨lit "UAGENT_HISTORY_DAYS", [], true⟩,
    ⟨lit "UAGENT_HISTORY_FILES", [], true⟩,
    ⟨lit "UAGENT_LOG_DAYS", [], true⟩,
    ⟨lit "UAGENT_LOG_FILES", [], true⟩,
    ⟨lit "UAGENT_APPROVAL", lit "approval", true⟩,
    ⟨lit "UAGENT_IDLE_MINUTES", [], true⟩,
    ⟨lit "UAGENT_PERMISSION_MODEL", lit "permission_model", true⟩,
    ⟨lit "UAGENT_TITLE_MODEL", lit "title_model", true⟩,
    ⟨lit "UAGENT_TOOL_CAPABILITIES", [], false⟩,
    ⟨lit "UAGENT_SHELL_ENV_ALLOW", [], true⟩,
    ⟨lit "UAGENT_DEBUG_LOG", [], false⟩,
    ⟨lit "UAGENT_PLAIN", [], false⟩,
    ⟨lit "UAGENT_DETAIL", [], true⟩]
  nodup := by decide +kernel

/-- What the settings file holds at one boundary after another. -/
def settingsRead (stamp : Nat) (values : SettingTexts) (h : Assoc.Sorted values) : TurnBoundary :=
  ⟨stamp, { values, stamp, sorted := h }⟩

/-- The model is chosen after the start. -/
def modelChosen : TurnBoundary := settingsRead 1 [(lit "UAGENT_MODEL", lit "next")] (by decide)

/-- And then a context window. -/
def windowChosen : TurnBoundary :=
  settingsRead 2 [(lit "UAGENT_CONTEXT", lit "9000"), (lit "UAGENT_MODEL", lit "next")] (by decide)

/-- The session before any change; a member is the text of its setting. -/
def plainSession : ConfigSession := ConfigSession.start (fun _ text => .str text) {}

/-- The same for another model, with memory on and a longer turn. -/
def memoryChosen : TurnBoundary :=
  settingsRead 3 [(lit "UAGENT_MAX_STEPS", lit "90"), (lit "UAGENT_MEMORY", lit "1"),
    (lit "UAGENT_MODEL", lit "other")] (by decide)

/-- The file cannot be read at a boundary. -/
def unreadable : TurnBoundary := ⟨2, { values := [], stamp := 2, error := lit "invalid JSON" }⟩

/-- Memory is set back, and the model changed once more. -/
def memoryBack : TurnBoundary :=
  settingsRead 4 [(lit "UAGENT_MODEL", lit "last")] (by decide)

/-- Four reloads: the model is listed from the first one on, memory until it is
set back, and the steps, which reload, never. -/
theorem restart_required_exact_model :
    let after := List.foldl
      (ConfigSession.reloadAtTurnBoundary kConfigRegistry fun _ text => .str text) plainSession
    (after [modelChosen, unreadable, memoryChosen]).manager.deferred =
        [lit "UAGENT_MODEL", lit "memory_enabled"] ∧
      (after [modelChosen, unreadable, memoryChosen]).ListsExactly kConfigRegistry
        (fun _ text => .str text) ∧
      (after [modelChosen, unreadable, memoryChosen, memoryBack]).manager.deferred =
        [lit "UAGENT_MODEL"] ∧
      (after [modelChosen, unreadable, memoryChosen, memoryBack]).ListsExactly kConfigRegistry
        fun _ text => .str text := by
  refine ⟨by decide +kernel, ?_, by decide +kernel, ?_⟩
  · exact restart_required_exact kConfigRegistry _ {} (.of_allOk (by decide +kernel))
  · exact restart_required_exact kConfigRegistry _ {} (.of_allOk (by decide +kernel))

/-- The model is still another one than the session took, and no longer listed. -/
theorem changed_model_not_listed :
    let turn := ConfigSession.reloadAtTurnBoundary kConfigRegistry fun _ text => .str text
    lit "UAGENT_MODEL" ∈ (turn plainSession modelChosen).manager.deferred ∧
      (turn (turn plainSession modelChosen) windowChosen).NeedsRestart kConfigRegistry
        (fun _ text => .str text) (lit "UAGENT_MODEL") ∧
      lit "UAGENT_MODEL" ∉ (turn (turn plainSession modelChosen) windowChosen).manager.deferred := by
  refine ⟨by decide +kernel, .inr ⟨by decide +kernel, by decide +kernel, by decide +kernel⟩,
    by decide +kernel⟩

end UAgent
