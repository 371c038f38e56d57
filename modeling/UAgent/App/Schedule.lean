/-
UAgent/App/Schedule.lean

Scheduled tasks (src/app/schedule.cc): the calendar of a task, the operations
a person has on the stored tasks and their runs, and the two operations of
the host that claims due runs and reports how they go.

Every change goes through `mutate`, which holds the store's lock, refuses a
store it cannot trust and evicts old runs.  What the operations read from
outside (the clock, the identifiers they make, folders, the C library's
calendar) is their environment `ScheduleEnv`.
-/
import UAgent.Core.Json
import UAgent.Core.Strings

namespace UAgent

open Bytes

/-! ### The store -/

/-- A stored task. -/
structure ScheduleTask where
  id : Bytes
  revision : Bytes
  name : Bytes
  prompt : Bytes
  cwd : Bytes
  environment : Bytes
  permissions : Bytes
  model : Bytes
  check : Bytes
  schedule : Json
  enabled : Bool
  next : Int
  upcoming : List Int
  error : Bytes := []
deriving DecidableEq

/-- A stored run of a task. -/
structure ScheduledRun where
  id : Bytes
  taskId : Bytes
  taskRevision : Bytes
  title : Bytes
  scheduledFor : Int
  updated : Int
  status : Bytes
  cwd : Bytes
  project : Bytes
  sessionPath : Bytes
  sessionId : Bytes
  definition : ScheduleTask
  error : Bytes := []
deriving DecidableEq

/-- The stored tasks and runs; `Empty` is the default. -/
structure Schedules where
  revision : Bytes := []
  tasks : List ScheduleTask := []
  runs : List ScheduledRun := []
deriving DecidableEq

def kTasks : Nat := 64
def kRuns : Nat := 128

/-- `ScheduledRunActive`. -/
def scheduledRunActive (state : Bytes) : Bool :=
  state = lit "queued" || state = lit "starting" || state = lit "running" ||
    state = lit "waiting" || state = lit "stopping"

/-- The checks of `ReadSchedules` on a store's tasks and runs. -/
def Schedules.valid (store : Schedules) : Bool :=
  store.tasks.length ≤ kTasks && store.runs.length ≤ kRuns &&
    (store.tasks.map ScheduleTask.id).Nodup && (store.runs.map ScheduledRun.id).Nodup &&
    store.tasks.all (fun task =>
      task.id ≠ [] && task.revision ≠ [] && task.name ≠ [] && task.cwd ≠ [] && task.prompt ≠ [] &&
        task.schedule.isObject) &&
    store.runs.all (fun run =>
      run.id ≠ [] && run.taskId ≠ [] && run.status ≠ [] && run.sessionPath ≠ [] && run.cwd ≠ [])

/-! ### The calendar -/

/-- A broken-down local time. -/
structure Tm where
  sec : Int
  min : Int
  hour : Int
  mday : Int
  mon : Int
  year : Int
  wday : Int
  yday : Int
  isdst : Int
deriving DecidableEq

/-- The C library's calendar under a time zone. -/
structure Calendar where
  zoneInstalled : Bytes → Bool
  localtime : Bytes → Int → Option Tm
  /-- the instant (-1 for none) and the normalised local time -/
  mktime : Bytes → Tm → Int × Tm

def kMaxScheduleEpoch : Int := 4102444800
def kSecondsPerMinute : Int := 60
def kSecondsPerYear : Int := 31536000
def kTimezoneNameChars : Nat := 100
def kUpcomingScheduleTimes : Nat := 3

/-- The time zones `ScheduleCalendar` takes. -/
def validZone (c : Calendar) (zone : Bytes) : Bool :=
  zone ≠ [] && zone.length ≤ kTimezoneNameChars && zone.head? ≠ some (ch '/') &&
    (find (lit "..") zone).isNone &&
    zone.all (fun c => isAlnum c || c = ch '/' || c = ch '_' || c = ch '-' || c = ch '+') &&
    c.zoneInstalled zone

/-- The hour and the minute of "HH:MM". -/
def hourMinute (time : Bytes) : Option (Int × Int) :=
  if time.length ≠ 5 ∨ time[2]? ≠ some (ch ':') then none
  else
    match parseInt64 (time.take 2), parseInt64 (time.drop 3) with
    | some hour, some minute =>
      if hour < 0 ∨ hour > 23 ∨ minute < 0 ∨ minute > 59 then none else some (hour, minute)
    | _, _ => none

/-- A day of the week as its item gives it: an integer cut to `int64_t`, or
no day at all. -/
def weekday : Json → Int
  | .uint n => if n.toNat < 2 ^ 63 then n.toNat else n.toNat - 2 ^ 64
  | .int n => n.toInt
  | _ => -1

/-- The task's time `offset` days after `today`.  Gaps are skipped; repeated
local times run at their first occurrence. -/
def weeklyTime (c : Calendar) (zone : Bytes) (hour minute : Int) (days : List Int) (today : Tm)
    (after : Int) (offset : Nat) : Option Int :=
  let noon := c.mktime zone
    { today with hour := 12, min := 0, sec := 0, mday := today.mday + offset, isdst := -1 }
  let date := noon.2
  if noon.1 < 0 ∨ date.wday ∉ days then none
  else
    let candidate := [0, 1].foldl (fun candidate dst =>
      let at_ := (c.mktime zone { date with hour := hour, min := minute, sec := 0, isdst := dst }).1
      let same := (c.localtime zone at_).any fun actual =>
        actual.year = date.year && actual.yday = date.yday && actual.hour = hour &&
          actual.min = minute
      if at_ ≥ 0 ∧ same ∧ (candidate < 0 ∨ at_ < candidate) then at_ else candidate) (-1)
    if candidate > after then some candidate else none

/-- `ScheduleCalendar`: the next times of a schedule after an instant. -/
def scheduleCalendar (c : Calendar) (schedule : Json) (after : Int) : Except Bytes (List Int) :=
  let type := jsonValueStr schedule (lit "type") []
  if after < 0 ∨ after > kMaxScheduleEpoch then
    .error (lit "schedule date is outside 1970–2100")
  else if type = lit "once" then
    let at_ := jsonValueInt64 schedule (lit "at") 0
    .ok (if at_ > after ∧ at_ < kMaxScheduleEpoch then [at_] else [])
  else if type = lit "interval" then
    let interval := jsonValueInt64 schedule (lit "seconds") 0
    let start := jsonValueInt64 schedule (lit "start") 0
    if interval < kSecondsPerMinute ∨ interval > kSecondsPerYear ∨ start < 0 ∨
        start > kMaxScheduleEpoch then
      .error (lit "interval must be between one minute and one year")
    else
      let next := if start > after then start else start + ((after - start) / interval + 1) * interval
      .ok ((List.range kUpcomingScheduleTimes).map fun i : Nat => next + i * interval)
  else if type = lit "weekly" then
    let zone := jsonValueStr schedule (lit "timezone") []
    if !validZone c zone then
      .error (lit "choose an installed IANA timezone, for example Europe/Zurich")
    else
      match hourMinute (jsonValueStr schedule (lit "time") []) with
      | none => .error (lit "time must be HH:MM")
      | some (hour, minute) =>
        let days := ((jsonArray schedule (lit "days")).getD []).map weekday
        if days.any fun day => day < 0 || day > 6 then
          .error (lit "weekdays must be integers 0–6")
        else if days = [] then .error (lit "choose at least one weekday")
        else
          match c.localtime zone after with
          | none => .error (lit "cannot resolve local time")
          | some today =>
            .ok (((List.range 29).filterMap
              (weeklyTime c zone hour minute days today after)).take 3)
  else .error (lit "choose once, interval or weekly")

/-! ### What the operations read from outside -/

/-- The environment of one operation. -/
structure ScheduleEnv where
  calendar : Calendar
  /-- why the helper process that asks the calendar fails, if it does -/
  helperError : Option Bytes := none
  /-- why the store cannot be locked or read, if so -/
  readError : Option Bytes := none
  /-- why a changed store cannot be written, if so -/
  writeError : Schedules → Option Bytes := fun _ => none
  /-- `NowSeconds`, and what it says when an interval without a start is saved -/
  now : Int
  started : Int := now
  /-- `HashHex(MakeSessionId())` at each place that makes an identifier -/
  runId : Nat → Bytes
  taskId : Bytes
  taskRevision : Bytes
  storeRevision : Bytes
  hostRuns : Bool := true
  canonicalDirectory : Bytes → Option Bytes
  /-- `PlanLaunch`: the folder and the session file of a run -/
  planLaunch : Bytes → Bool → Bytes → Bytes → Bytes × Bytes
  sessionIdFor : Bytes → Bytes

/-- `ScheduleTimes`: a weekly schedule is asked in a process of its own. -/
def scheduleTimes (env : ScheduleEnv) (schedule : Json) (after : Int) : Except Bytes (List Int) :=
  if jsonValueStr schedule (lit "type") [] = lit "weekly" then
    match env.helperError with
    | some error => .error error
    | none => scheduleCalendar env.calendar schedule after
  else scheduleCalendar env.calendar schedule after

/-! ### Changing the store -/

/-- What an operation answers. -/
inductive ScheduleReply where
  | error (text : Bytes) (conflict : Bool := false)
  | stopped (id : Bytes)
  | item (task : ScheduleTask)
  | run (run : ScheduledRun)
  | deleted (id : Bytes)
  | runs (claimed : List ScheduledRun)
  | done
deriving DecidableEq

/-- `contains("error")`. -/
def ScheduleReply.isError : ScheduleReply → Bool
  | .error _ _ => true
  | _ => false

namespace ScheduledRun

/-- Whether the run counts as active. -/
def active (run : ScheduledRun) : Bool := scheduledRunActive run.status

end ScheduledRun

/-- Drops the oldest runs that are not active, `count` of them. -/
def evictRuns : Nat → List ScheduledRun → Option (List ScheduledRun)
  | 0, runs => some runs
  | count + 1, runs =>
    if runs.all ScheduledRun.active then none
    else evictRuns count (runs.eraseP fun run => !run.active)

/-- `Mutate`. -/
def mutate (env : ScheduleEnv) (change : Schedules → ScheduleReply × Schedules)
    (before : Schedules) : ScheduleReply × Schedules :=
  match env.readError with
  | some error => (.error error, before)
  | none =>
    if !before.valid then
      (.error (lit "scheduled task store is invalid; it has been preserved"), before)
    else
      let (result, store) := change before
      if result.isError ∨ store = before then (result, before)
      else
        match evictRuns (store.runs.length - kRuns) store.runs with
        | none => (.error (lit "scheduled run limit reached"), before)
        | some runs =>
          let store := { store with revision := env.storeRevision, runs := runs }
          match env.writeError store with
          | some error => (.error error, before)
          | none => (result, store)

/-- `Run`: the `n`-th run an operation makes. -/
def newRun (env : ScheduleEnv) (n : Nat) (task : ScheduleTask) (at_ : Int) (status : Bytes) :
    ScheduledRun :=
  let id := env.runId n
  let (cwd, path) :=
    env.planLaunch task.cwd (task.environment = lit "worktree") (lit "scheduled-") id
  { id := id, taskId := task.id, taskRevision := task.revision, title := task.name
    scheduledFor := at_, updated := env.now, status := status, cwd := cwd, project := task.cwd
    sessionPath := path, sessionId := env.sessionIdFor path, definition := task }

/-- `Busy`. -/
def busy (runs : List ScheduledRun) (task : Bytes) : Bool :=
  runs.any fun run => run.taskId = task && run.active

/-! ### The operations of a person -/

/-- `ScheduleStop`. -/
def scheduleStop (env : ScheduleEnv) (store : Schedules) (id : Bytes) :
    ScheduleReply × Schedules :=
  let isActive := fun run : ScheduledRun => run.id = id && run.active
  if store.runs.any isActive then
    let stop := fun run : ScheduledRun =>
      { run with
        status := if run.status = lit "queued" then lit "interrupted" else lit "stopping"
        updated := env.now }
    (.stopped id, { store with runs := store.runs.modify (store.runs.findIdx isActive) stop })
  else (.error (lit "active run not found"), store)

def kScheduleNameChars : Nat := 256
def kSchedulePromptChars : Nat := 8 * 1024
def kScheduleCheckChars : Nat := 2 * 1024

/-- `Cfg("UAGENT_APPROVAL").Accepts`. -/
def approvalAccepts (value : Bytes) : Bool :=
  value = [] || value ∈ [lit "ask", lit "auto", lit "yolo", lit "plan"]

/-- `ScheduleSave`: a new task, or the one `id` names changed. -/
def scheduleSave (env : ScheduleEnv) (store : Schedules) (request : Json) (id : Bytes) :
    ScheduleReply × Schedules :=
  let found := store.tasks.find? (·.id = id)
  let task := jsonValue request (lit "task") (.obj [])
  let name := trim (jsonValueStr task (lit "name") [])
  let prompt := trim (jsonValueStr task (lit "prompt") [])
  let check := trim (jsonValueStr task (lit "check") [])
  let environment := jsonValueStr task (lit "environment") (lit "worktree")
  let permissions := jsonValueStr task (lit "permissions") (lit "ask")
  if name = [] ∨ name.length > kScheduleNameChars ∨ prompt = [] ∨
      prompt.length > kSchedulePromptChars ∨ check.length > kScheduleCheckChars ∨
      (environment ≠ lit "local" ∧ environment ≠ lit "worktree") ∨ ¬approvalAccepts permissions then
    (.error (lit "provide a name, instructions, execution environment and permissions"), store)
  else
    match env.canonicalDirectory (jsonValueStr task (lit "cwd") []) with
    | none => (.error (lit "folder is unavailable"), store)
    | some cwd =>
      if found = none ∧ (id ≠ [] ∨ store.tasks.length ≥ kTasks) then
        (.error (lit "task not found or task limit reached"), store)
      else if !request.contains (lit "revision") ||
          jsonValueStr request (lit "revision") [] ≠ (found.map ScheduleTask.revision).getD [] then
        (.error (lit "This task changed. Reload it before saving.") true, store)
      else
        let schedule := jsonValue task (lit "schedule") (.obj [])
        let schedule :=
          if jsonValueStr schedule (lit "type") [] = lit "interval" ∧
              ¬schedule.contains (lit "start") then
            schedule.set (lit "start") (.int (Int64.ofInt env.started))
          else schedule
        match scheduleTimes env schedule env.now with
        | .error error => (.error error, store)
        | .ok [] => (.error (lit "choose a future run time"), store)
        | .ok (next :: upcoming) =>
          let saved : ScheduleTask :=
            { id := if id = [] then env.taskId else id
              revision := env.taskRevision
              name := name, prompt := prompt, cwd := cwd, environment := environment
              permissions := permissions
              model := jsonValueStr task (lit "model") []
              check := check, schedule := schedule
              enabled := jsonValueBool task (lit "enabled") true
              next := next, upcoming := next :: upcoming }
          (.item saved,
            { store with
              tasks :=
                if found = none then store.tasks ++ [saved]
                else store.tasks.modify (store.tasks.findIdx (·.id = id)) fun _ => saved })

/-- `ScheduleRun`. -/
def scheduleRun (env : ScheduleEnv) (store : Schedules) (id : Bytes) (task : ScheduleTask) :
    ScheduleReply × Schedules :=
  if !env.hostRuns then (.error (lit "Start uagent --web to run scheduled tasks."), store)
  else if busy store.runs id then (.error (lit "this task already has an active run"), store)
  else
    let run := newRun env 0 task env.now (lit "queued")
    (.run run, { store with runs := store.runs ++ [run] })

/-- A task's queued runs are dropped. -/
def dropQueued (env : ScheduleEnv) (id : Bytes) (run : ScheduledRun) : ScheduledRun :=
  if run.taskId = id ∧ run.status = lit "queued" then
    { run with status := lit "interrupted", updated := env.now }
  else run

/-- `ScheduleChange`: pause, resume and forget.  All need the revision the
caller saw, and all but resume drop the task's queued runs. -/
def scheduleChange (env : ScheduleEnv) (store : Schedules) (request : Json) (id : Bytes)
    (task : ScheduleTask) (action : Bytes) : ScheduleReply × Schedules :=
  if jsonValueStr request (lit "revision") [] ≠ task.revision then
    (.error (lit "This task changed. Reload it before changing it.") true, store)
  else
    let index := store.tasks.findIdx (·.id = id)
    let runs := if action = lit "resume" then store.runs else store.runs.map (dropQueued env id)
    if action = lit "forget" then
      (.deleted id, { store with tasks := store.tasks.eraseIdx index, runs := runs })
    else if action = lit "resume" then
      match scheduleTimes env task.schedule env.now with
      | .error _ | .ok [] => (.error (lit "edit the task to choose a future run time"), store)
      | .ok (next :: upcoming) =>
        let task := { task with
          enabled := true, next := next, upcoming := next :: upcoming
          revision := env.taskRevision }
        (.item task, { store with tasks := store.tasks.modify index fun _ => task, runs := runs })
    else
      let task := { task with enabled := false, revision := env.taskRevision }
      (.item task, { store with tasks := store.tasks.modify index fun _ => task, runs := runs })

/-- The actions of `ScheduleControl` that change the store. -/
def scheduleActions : List Bytes :=
  [lit "stop", lit "save", lit "run", lit "pause", lit "resume", lit "forget"]

/-- The change `ScheduleControl` makes under the lock. -/
def scheduleControlChange (env : ScheduleEnv) (request : Json) (store : Schedules) :
    ScheduleReply × Schedules :=
  let action := jsonValueStr request (lit "action") []
  let id := jsonValueStr request (lit "key") []
  if action = lit "stop" then scheduleStop env store id
  else if action = lit "save" then scheduleSave env store request id
  else
    match store.tasks.find? (·.id = id) with
    | none => (.error (lit "scheduled task not found"), store)
    | some task =>
      if action = lit "run" then scheduleRun env store id task
      else scheduleChange env store request id task action

/-- `ScheduleControl`.  An action that only reads changes nothing; its answer
is left out. -/
def scheduleControl (env : ScheduleEnv) (request : Json) (store : Schedules) :
    ScheduleReply × Schedules :=
  if jsonValueStr request (lit "action") [] ∈ scheduleActions then
    mutate env (scheduleControlChange env request) store
  else (.done, store)

/-! ### The operations of the host -/

/-- Whether a task's next time has come. -/
def ScheduleTask.due (task : ScheduleTask) (now : Int) : Bool :=
  task.enabled && task.next ≠ 0 && task.next ≤ now

/-- One task in `ClaimScheduledRuns`, with the runs so far and how many of
them this claim made: the task and the run made for it. -/
def claimTask (env : ScheduleEnv) (now : Int) (runs : List ScheduledRun) (made : Nat)
    (task : ScheduleTask) : ScheduleTask × Option ScheduledRun :=
  if !task.due now then (task, none)
  else
    match scheduleTimes env task.schedule now with
    | .error error => ({ task with enabled := false, error := error }, none)
    | .ok times =>
      let claimed := { task with
        next := times.headD 0, upcoming := times, enabled := task.enabled && times ≠ [] }
      let status :=
        if now - task.next > 60 then lit "missed"
        else if busy runs task.id then lit "skipped" else lit "queued"
      (claimed, some (newRun env made claimed task.next status))

/-- The tasks one after another: the tasks changed and the runs made. -/
def claimTasks (env : ScheduleEnv) (now : Int) (runs : List ScheduledRun) (made : Nat) :
    List ScheduleTask → List ScheduleTask × List ScheduledRun
  | [] => ([], [])
  | task :: tasks =>
    let (claimed, run) := claimTask env now runs made task
    let (claimedTasks, made') :=
      claimTasks env now (runs ++ run.toList) (made + run.toList.length) tasks
    (claimed :: claimedTasks, run.toList ++ made')

/-- Queued runs start, as many as there are slots: the runs and the started
ones. -/
def startQueued (now : Int) : Nat → List ScheduledRun → List ScheduledRun × List ScheduledRun
  | _, [] => ([], [])
  | 0, runs => (runs, [])
  | slots + 1, run :: runs =>
    if run.status = lit "queued" then
      let started := { run with status := lit "starting", updated := now }
      let (runs, claimed) := startQueued now slots runs
      (started :: runs, started :: claimed)
    else
      let (runs, claimed) := startQueued now (slots + 1) runs
      (run :: runs, claimed)

/-- The change `ClaimScheduledRuns` makes under the lock. -/
def claimChange (env : ScheduleEnv) (now : Int) (slots : Nat) (store : Schedules) :
    ScheduleReply × Schedules :=
  let (tasks, made) := claimTasks env now store.runs 0 store.tasks
  let (runs, claimed) := startQueued now slots (store.runs ++ made)
  (.runs claimed, { store with tasks := tasks, runs := runs })

/-- `ClaimScheduledRuns`. -/
def claimScheduledRuns (env : ScheduleEnv) (now : Int) (slots : Nat) (store : Schedules) :
    ScheduleReply × Schedules := mutate env (claimChange env now slots) store

/-- One run in `UpdateScheduledRun`.  Once the user requests stop, a
concurrent terminal result cannot revive the run or relabel it. -/
def updateRun (env : ScheduleEnv) (id status error : Bytes) (run : ScheduledRun) : ScheduledRun :=
  if run.id = id ∧ (run.status ≠ status ∨ run.error ≠ error) then
    if !run.active || (run.status = lit "stopping" && scheduledRunActive status) then run
    else
      { run with
        status := if run.status = lit "stopping" then lit "interrupted" else status
        updated := env.now
        error := if error = [] then run.error else error }
  else run

/-- `UpdateScheduledRun`. -/
def updateScheduledRun (env : ScheduleEnv) (id status error : Bytes) (store : Schedules) :
    ScheduleReply × Schedules :=
  mutate env (fun store => (.done, { store with runs := store.runs.map (updateRun env id status error) }))
    store

end UAgent
