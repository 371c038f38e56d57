/-
UAgent/App/ScheduleRuns.lean

What holds of the stored schedule over any sequence of operations
(src/app/schedule.cc).

Underneath, `RunMove` says what may be done to the runs at all: a run
advances, a run is added for a task without an active one, runs are evicted.
Every operation is a chain of such moves, so a task has at most one active
run, and a run's state only goes forward.  The occurrences a claim recorded
stay before the task's next time.

Main result: `schedules_sound`.  Only save and resume set a task's next time
by the clock, so a clock set back between them and a claim can record an
occurrence twice (`schedules_clock_back`).
-/
import UAgent.App.Schedule
import UAgent.Base.Evolve
import UAgent.Base.Run
import Mathlib.Data.List.Nodup
import Mathlib.Logic.Relation

namespace UAgent

open Bytes
open scoped List

/-! ### What may be done to the runs -/

/-- What a run may become. -/
structure Advance (run run' : ScheduledRun) : Prop where
  id : run'.id = run.id
  task : run'.taskId = run.taskId
  /-- a terminal state stays -/
  terminal : run.active = false → run'.status = run.status
  /-- a stopping run ends as interrupted -/
  stopping : run.status = lit "stopping" →
    run'.status = lit "stopping" ∨ run'.status = lit "interrupted"

namespace Advance

theorem refl (run : ScheduledRun) : Advance run run := ⟨rfl, rfl, fun _ => rfl, .inl⟩

theorem not_active {run run' : ScheduledRun} (h : Advance run run') (hr : run.active = false) :
    run'.active = false := by
  rw [ScheduledRun.active, h.terminal hr]
  exact hr

theorem not_active_of_status {run : ScheduledRun} {status : Bytes} (h : run.status = status)
    (hs : scheduledRunActive status = false) : run.active = false := by
  rw [ScheduledRun.active, h]
  exact hs

theorem trans (a b c : ScheduledRun) (h₁ : Advance a b) (h₂ : Advance b c) : Advance a c where
  id := h₂.id.trans h₁.id
  task := h₂.task.trans h₁.task
  terminal ha := (h₂.terminal (h₁.not_active ha)).trans (h₁.terminal ha)
  stopping ha := by
    rcases h₁.stopping ha with hb | hb
    · exact h₂.stopping hb
    · exact .inr ((h₂.terminal (not_active_of_status hb (by decide))).trans hb)

/-- A run that is active and not stopping may become anything. -/
theorem of_status {run run' : ScheduledRun} (hid : run'.id = run.id)
    (htask : run'.taskId = run.taskId) {status : Bytes} (h : run.status = status)
    (hactive : scheduledRunActive status = true) (hne : status ≠ lit "stopping") :
    Advance run run' where
  id := hid
  task := htask
  terminal hr := by
    rw [ScheduledRun.active, h, hactive] at hr
    exact absurd hr.symm Bool.false_ne_true
  stopping hr := absurd (h.symm.trans hr) hne

end Advance

/-- No task has two active runs. -/
def Exclusive (runs : List ScheduledRun) : Prop :=
  runs.Pairwise fun run run' => run.taskId = run'.taskId → ¬(run.active = true ∧ run'.active = true)

theorem Exclusive.countP_le {runs : List ScheduledRun} (h : Exclusive runs) (task : Bytes) :
    runs.countP (fun run => run.taskId = task && run.active) ≤ 1 := by
  induction runs with
  | nil => exact Nat.zero_le 1
  | cons run runs ih =>
    rw [Exclusive, List.pairwise_cons] at h
    rw [List.countP_cons]
    split_ifs with hrun
    · rw [Bool.and_eq_true, decide_eq_true_eq] at hrun
      have hnone : runs.countP (fun run => run.taskId = task && run.active) = 0 := by
        refine List.countP_eq_zero.mpr fun run' hmem hrun' => ?_
        rw [Bool.and_eq_true, decide_eq_true_eq] at hrun'
        exact h.1 run' hmem (hrun.1.trans hrun'.1.symm) ⟨hrun.2, hrun'.2⟩
      rw [hnone]
    · exact ih h.2

/-- One move on the runs; `fresh` are the identifiers made for it. -/
inductive RunMove (fresh : Bytes → Prop) : List ScheduledRun → List ScheduledRun → Prop
  | advance {runs runs' : List ScheduledRun} (h : List.Forall₂ Advance runs runs') :
      RunMove fresh runs runs'
  | append {runs : List ScheduledRun} (run : ScheduledRun) (hid : fresh run.id)
      (h : run.active = true → busy runs run.taskId = false) : RunMove fresh runs (runs ++ [run])
  | evict {runs runs' : List ScheduledRun} (h : runs' <+ runs) : RunMove fresh runs runs'

/-- A chain of moves. -/
abbrev RunMoves (fresh : Bytes → Prop) : List ScheduledRun → List ScheduledRun → Prop :=
  Relation.ReflTransGen (RunMove fresh)

theorem RunMoves.mono {fresh fresh' : Bytes → Prop} (hf : ∀ id, fresh id → fresh' id)
    {runs runs' : List ScheduledRun} (h : RunMoves fresh runs runs') :
    RunMoves fresh' runs runs' := by
  induction h with
  | refl => exact .refl
  | tail _ hmove ih =>
    cases hmove with
    | advance h => exact ih.tail (.advance h)
    | append run hid h => exact ih.tail (.append run (hf _ hid) h)
    | evict h => exact ih.tail (.evict h)

/-- The new runs carry identifiers made for them. -/
abbrev FreshRun (fresh : Bytes → Prop) (run : ScheduledRun) : Prop := fresh run.id

theorem FreshRun.advance {fresh : Bytes → Prop} (run run' : ScheduledRun) (h : FreshRun fresh run)
    (ha : Advance run run') : FreshRun fresh run' := by
  rw [FreshRun, ha.id]
  exact h

variable {fresh : Bytes → Prop} {runs runs' : List ScheduledRun}

theorem busy_eq_false {task : Bytes} (h : busy runs task = false) {run : ScheduledRun}
    (hrun : run ∈ runs) (htask : run.taskId = task) : run.active = false := by
  have := List.any_eq_false.mp h run hrun
  simpa [htask] using this

/-- Every move keeps the active runs apart. -/
theorem RunMove.exclusive (h : RunMove fresh runs runs') (hruns : Exclusive runs) :
    Exclusive runs' := by
  cases h with
  | advance h =>
    refine hruns.of_forall₂ (fun a a' b b' ha hb hab htask hactive => ?_) h
    have hne : ∀ {r r' : ScheduledRun}, Advance r r' → r'.active = true → r.active = true :=
      fun {r r'} hr hr' => by
        by_contra hr''
        rw [hr.not_active (Bool.not_eq_true _ ▸ hr'')] at hr'
        exact Bool.false_ne_true hr'
    exact hab (ha.task ▸ hb.task ▸ htask) ⟨hne ha hactive.1, hne hb hactive.2⟩
  | append run _ h =>
    refine List.pairwise_append.mpr ⟨hruns, List.pairwise_singleton _ _, fun r hr r' hr' => ?_⟩
    obtain rfl := List.mem_singleton.mp hr'
    intro htask hactive
    rw [busy_eq_false (h hactive.2) hr htask] at hactive
    exact Bool.false_ne_true hactive.1
  | evict h => exact hruns.sublist h

theorem RunMoves.exclusive (h : RunMoves fresh runs runs') (hruns : Exclusive runs) :
    Exclusive runs' := by
  induction h with
  | refl => exact hruns
  | tail _ h ih => exact h.exclusive ih

theorem RunMove.evolves (h : RunMove fresh runs runs') :
    List.Evolves Advance (FreshRun fresh) runs runs' := by
  cases h with
  | advance h => exact .of_forall₂ h
  | append run hid _ =>
    refine .of_append Advance.refl fun r hr => ?_
    obtain rfl := List.mem_singleton.mp hr
    exact hid
  | evict h => exact .of_sublist Advance.refl h

theorem RunMoves.evolves (h : RunMoves fresh runs runs') :
    List.Evolves Advance (FreshRun fresh) runs runs' := by
  induction h with
  | refl => exact .of_sublist Advance.refl (.refl _)
  | tail _ h ih => exact ih.trans Advance.refl Advance.trans FreshRun.advance h.evolves

theorem RunMoves.of_advance (h : List.Forall₂ Advance runs runs') : RunMoves fresh runs runs' :=
  Relation.ReflTransGen.single (.advance h)

/-! ### The operations as moves -/

theorem evictRuns_sublist {count : Nat} (h : evictRuns count runs = some runs') :
    runs' <+ runs := by
  induction count generalizing runs with
  | zero => exact Option.some.inj h ▸ .refl _
  | succ count ih =>
    rw [evictRuns] at h
    split_ifs at h
    exact (ih h).trans List.eraseP_sublist

/-- What `mutate` leaves: nothing changed and an error, or the change with
some runs evicted. -/
theorem mutate_cases (env : ScheduleEnv) (change : Schedules → ScheduleReply × Schedules)
    (before : Schedules) :
    ((mutate env change before).1.isError = true ∧ (mutate env change before).2 = before) ∨
      ((mutate env change before).1.isError = false ∧ before.valid = true ∧
        (change before).1.isError = false ∧
        (mutate env change before).2.tasks = (change before).2.tasks ∧
        (mutate env change before).2.runs <+ (change before).2.runs) := by
  rw [mutate]
  cases env.readError with
  | some error => exact .inl ⟨rfl, rfl⟩
  | none =>
    dsimp only
    split_ifs with hvalid hsame
    · exact .inl ⟨rfl, rfl⟩
    · replace hvalid : before.valid = true := by simpa using hvalid
      cases herror : (change before).1.isError with
      | true => exact .inl ⟨rfl, rfl⟩
      | false =>
        have hstore := hsame.resolve_left (by rw [herror]; exact Bool.false_ne_true)
        exact .inr ⟨rfl, hvalid, rfl, by rw [hstore], by rw [hstore]⟩
    · replace hvalid : before.valid = true := by simpa using hvalid
      rw [not_or, Bool.not_eq_true] at hsame
      cases hevict : evictRuns ((change before).2.runs.length - kRuns) (change before).2.runs with
      | none => exact .inl ⟨rfl, rfl⟩
      | some runs =>
        dsimp only
        cases env.writeError _ with
        | some error => exact .inl ⟨rfl, rfl⟩
        | none => exact .inr ⟨hsame.1, hvalid, hsame.1, rfl, evictRuns_sublist hevict⟩

/-- The identifiers an operation makes for its runs. -/
def ScheduleEnv.makes (env : ScheduleEnv) (id : Bytes) : Prop := ∃ n, id = env.runId n

theorem RunMoves.mutate {env : ScheduleEnv} {change : Schedules → ScheduleReply × Schedules}
    {before : Schedules}
    (h : (change before).1.isError = false →
      RunMoves env.makes before.runs (change before).2.runs) :
    RunMoves env.makes before.runs (UAgent.mutate env change before).2.runs := by
  rcases mutate_cases env change before with ⟨-, hsame⟩ | ⟨-, -, hreply, -, hsub⟩
  · rw [hsame]
  · exact (h hreply).tail (.evict hsub)

theorem runMoves_stop (env : ScheduleEnv) (store : Schedules) (id : Bytes) :
    RunMoves fresh store.runs (scheduleStop env store id).2.runs := by
  rw [scheduleStop]
  dsimp only
  split_ifs
  · refine .of_advance (List.forall₂_modify_findIdx Advance.refl fun run _ hrun => ?_)
    rw [Bool.and_eq_true] at hrun
    refine ⟨rfl, rfl, fun hr => ?_, fun hr => ?_⟩
    · rw [hrun.2] at hr
      exact absurd hr.symm Bool.false_ne_true
    · have hne : run.status ≠ lit "queued" := by rw [hr]; decide
      exact .inl (if_neg hne)
  · rfl

/-- A save that is not refused stores a task with the times after now. -/
theorem scheduleSave_cases (env : ScheduleEnv) (store : Schedules) (request : Json) (id : Bytes) :
    (scheduleSave env store request id).1.isError = true ∨
      ∃ saved schedule upcoming,
        (scheduleSave env store request id).2 =
          { store with
            tasks :=
              if store.tasks.find? (·.id = id) = none then store.tasks ++ [saved]
              else store.tasks.modify (store.tasks.findIdx (·.id = id)) fun _ => saved } ∧
        saved.id = (if id = [] then env.taskId else id) ∧
        scheduleTimes env schedule env.now = .ok (saved.next :: upcoming) := by
  rw [scheduleSave]
  dsimp only
  split
  · exact .inl rfl
  · split
    · exact .inl rfl
    · split
      · exact .inl rfl
      · split
        · exact .inl rfl
        · split
          · exact .inl rfl
          · exact .inl rfl
          · exact .inr ⟨_, _, _, rfl, rfl, ‹_›⟩

theorem runMoves_run (env : ScheduleEnv) (store : Schedules) {id : Bytes} {task : ScheduleTask}
    (hid : task.id = id) : RunMoves env.makes store.runs (scheduleRun env store id task).2.runs := by
  rw [scheduleRun]
  split_ifs with _ hbusy
  · rfl
  · rfl
  · refine .single (.append _ ⟨0, rfl⟩ fun _ => ?_)
    rw [← hid] at hbusy
    exact Bool.eq_false_iff.mpr hbusy

theorem advance_dropQueued (env : ScheduleEnv) (id : Bytes) (run : ScheduledRun) :
    Advance run (dropQueued env id run) := by
  rw [dropQueued]
  split_ifs with h
  · exact .of_status rfl rfl h.2 (by decide) (by decide)
  · exact .refl run

/-- Pause, resume or forget, when not refused: the runs and the tasks. -/
theorem scheduleChange_cases (env : ScheduleEnv) (store : Schedules) (request : Json) (id : Bytes)
    (task : ScheduleTask) (action : Bytes) :
    (scheduleChange env store request id task action).1.isError = true ∨
      ((scheduleChange env store request id task action).2.runs = store.runs ∨
        (scheduleChange env store request id task action).2.runs =
          store.runs.map (dropQueued env id)) ∧
      ((scheduleChange env store request id task action).2.tasks <+ store.tasks ∨
        ∃ changed : ScheduleTask,
          (scheduleChange env store request id task action).2.tasks =
            store.tasks.modify (store.tasks.findIdx (·.id = id)) (fun _ => changed) ∧
          changed.id = task.id ∧
          (changed.enabled = false ∧ changed.next = task.next ∨
            action = lit "resume" ∧ ∃ schedule upcoming,
              scheduleTimes env schedule env.now = .ok (changed.next :: upcoming))) := by
  rw [scheduleChange]
  dsimp only
  split
  · exact .inl rfl
  · have hruns : ∀ p : Prop, [Decidable p] →
        ((if p then store.runs else store.runs.map (dropQueued env id)) = store.runs ∨
          (if p then store.runs else store.runs.map (dropQueued env id)) =
            store.runs.map (dropQueued env id)) := fun p _ => by
      split_ifs
      · exact .inl rfl
      · exact .inr rfl
    split
    · exact .inr ⟨hruns _, .inl (List.eraseIdx_sublist _ _)⟩
    · split
      · split
        · exact .inl rfl
        · exact .inl rfl
        · exact .inr ⟨.inl rfl, .inr ⟨_, rfl, rfl, .inr ⟨‹_›, _, _, ‹_›⟩⟩⟩
      · exact .inr ⟨.inr rfl, .inr ⟨_, rfl, rfl, .inl ⟨rfl, rfl⟩⟩⟩

theorem runMoves_change {env : ScheduleEnv} {store : Schedules} {request : Json} {id : Bytes}
    {task : ScheduleTask} {action : Bytes}
    (h : (scheduleChange env store request id task action).1.isError = false) :
    RunMoves fresh store.runs (scheduleChange env store request id task action).2.runs := by
  rcases scheduleChange_cases env store request id task action with herror | ⟨hruns, -⟩
  · rw [herror] at h
    cases h
  · rcases hruns with hruns | hruns
    · rw [hruns]
    · rw [hruns]
      exact .of_advance (List.forall₂_map_right_iff.mpr
        (List.forall₂_same.mpr fun run _ => advance_dropQueued env id run))

/-- The four things a person's operation comes down to. -/
theorem scheduleControlChange_cases (env : ScheduleEnv) (request : Json) (store : Schedules) :
    let action := jsonValueStr request (lit "action") []
    let id := jsonValueStr request (lit "key") []
    let change := scheduleControlChange env request store
    change.1.isError = true ∨ change = scheduleStop env store id ∨
      (action = lit "save" ∧ change = scheduleSave env store request id) ∨
      ∃ task ∈ store.tasks, task.id = id ∧
        (change = scheduleRun env store id task ∨
          change = scheduleChange env store request id task action) := by
  intro action id change
  simp only [change, scheduleControlChange]
  split
  · exact .inr (.inl rfl)
  · split
    · exact .inr (.inr (.inl ⟨‹_›, rfl⟩))
    · cases hfind : store.tasks.find? (·.id = id) with
      | none => exact .inl rfl
      | some task =>
        refine .inr (.inr (.inr ⟨task, List.mem_of_find?_eq_some hfind,
          by simpa using List.find?_some hfind, ?_⟩))
        dsimp only
        split
        · exact .inl rfl
        · exact .inr rfl

theorem runMoves_control (env : ScheduleEnv) (request : Json) (store : Schedules) :
    RunMoves env.makes store.runs (scheduleControl env request store).2.runs := by
  rw [scheduleControl]
  split
  · refine .mutate fun hreply => ?_
    rcases scheduleControlChange_cases env request store with
      herror | h | ⟨-, h⟩ | ⟨task, -, hid, h | h⟩
    · rw [herror] at hreply
      cases hreply
    · rw [h]
      exact runMoves_stop env store _
    · rw [h] at hreply ⊢
      rcases scheduleSave_cases env store request _ with herror | ⟨saved, _, _, hsave, -⟩
      · rw [herror] at hreply
        cases hreply
      · rw [hsave]
    · rw [h]
      exact runMoves_run env store hid
    · rw [h] at hreply ⊢
      exact runMoves_change hreply
  · rfl

/-- What a claim makes of one task: nothing, a task that is disabled because
its calendar failed, or the task with its next times and a run. -/
theorem claimTask_cases (env : ScheduleEnv) (now : Int) (runs : List ScheduledRun) (made : Nat)
    (task : ScheduleTask) :
    (task.due now = false ∧ claimTask env now runs made task = (task, none)) ∨
      (task.due now = true ∧ ∃ claimed : ScheduleTask,
        claimTask env now runs made task = (claimed, none) ∧ claimed.id = task.id ∧
        claimed.next = task.next ∧ claimed.enabled = false ∧
        ∀ times, scheduleTimes env task.schedule now ≠ .ok times) ∨
      (task.due now = true ∧ ∃ (claimed : ScheduleTask) (status : Bytes) (times : List Int),
        claimTask env now runs made task =
          (claimed, some (newRun env made claimed task.next status)) ∧ claimed.id = task.id ∧
        scheduleTimes env task.schedule now = .ok times ∧ claimed.next = times.headD 0 ∧
        (claimed.enabled = true → times ≠ []) ∧
        (scheduledRunActive status = true → busy runs task.id = false)) := by
  rw [claimTask]
  split
  · next hdue => exact .inl ⟨by simpa using hdue, rfl⟩
  · next hdue =>
    replace hdue : task.due now = true := by simpa using hdue
    cases htimes : scheduleTimes env task.schedule now with
    | error error => exact .inr (.inl ⟨hdue, _, rfl, rfl, rfl, rfl, fun _ => by simp⟩)
    | ok times =>
      refine .inr (.inr ⟨hdue, _, _, times, rfl, rfl, rfl, rfl, fun h => ?_, fun hactive => ?_⟩)
      · simpa using (Bool.and_eq_true_iff.mp h).2
      · -- A missed run and a skipped one are terminal.
        by_contra hbusy
        rw [Bool.not_eq_false] at hbusy
        rw [if_pos hbusy] at hactive
        split at hactive
        · exact absurd hactive (by decide)
        · exact absurd hactive (by decide)

theorem runMoves_claimTasks (env : ScheduleEnv) (now : Int) (made : Nat)
    (tasks : List ScheduleTask) :
    RunMoves env.makes runs (runs ++ (claimTasks env now runs made tasks).2) := by
  induction tasks generalizing runs made with
  | nil => rw [claimTasks, List.append_nil]
  | cons task tasks ih =>
    rw [claimTasks]
    dsimp only
    rw [← List.append_assoc]
    refine .trans ?_ (ih _)
    rcases claimTask_cases env now runs made task with
      ⟨-, h⟩ | ⟨-, claimed, h, -⟩ | ⟨-, claimed, status, times, h, hid, -, -, -, hbusy⟩
    · rw [h, Option.toList_none, List.append_nil]
    · rw [h, Option.toList_none, List.append_nil]
    · rw [h]
      refine .single (.append _ ⟨made, rfl⟩ fun hactive => ?_)
      change busy runs claimed.id = false
      rw [hid]
      exact hbusy hactive

theorem advance_startQueued (now : Int) (slots : Nat) (runs : List ScheduledRun) :
    List.Forall₂ Advance runs (startQueued now slots runs).1 := by
  induction runs generalizing slots with
  | nil => cases slots <;> exact .nil
  | cons run runs ih =>
    cases slots with
    | zero => exact List.forall₂_same.mpr fun run _ => .refl run
    | succ slots =>
      rw [startQueued]
      split_ifs with h
      · exact .cons (.of_status rfl rfl h (by decide) (by decide)) (ih slots)
      · exact .cons (.refl run) (ih _)

theorem runMoves_claim (env : ScheduleEnv) (now : Int) (slots : Nat) (store : Schedules) :
    RunMoves env.makes store.runs (claimScheduledRuns env now slots store).2.runs :=
  .mutate fun _ => (runMoves_claimTasks env now 0 store.tasks).tail
    (.advance (advance_startQueued now slots _))

theorem advance_updateRun (env : ScheduleEnv) (id status error : Bytes) (run : ScheduledRun) :
    Advance run (updateRun env id status error run) := by
  rw [updateRun]
  split
  · split
    · exact .refl run
    · next hkeep =>
      rw [Bool.not_eq_true, Bool.or_eq_false_iff, Bool.not_eq_false'] at hkeep
      refine ⟨rfl, rfl, fun hr => ?_, fun hr => .inr (if_pos hr)⟩
      rw [hkeep.1] at hr
      exact absurd hr.symm Bool.false_ne_true
  · exact .refl run

theorem runMoves_update (env : ScheduleEnv) (id status error : Bytes) (store : Schedules) :
    RunMoves env.makes store.runs (updateScheduledRun env id status error store).2.runs :=
  .mutate fun _ => .of_advance (List.forall₂_map_right_iff.mpr
    (List.forall₂_same.mpr fun run _ => advance_updateRun env id status error run))

/-! ### The next times of the tasks -/

/-- The calendar gives times after the instant asked about, which is not
before 1970. -/
theorem scheduleCalendar_later {c : Calendar} {schedule : Json} {after : Int} {times : List Int}
    (h : scheduleCalendar c schedule after = .ok times) : 0 ≤ after ∧ ∀ t ∈ times, after < t := by
  unfold scheduleCalendar at h
  extract_lets _ _ interval start next at h
  split at h
  · cases h
  · next hrange =>
    rw [not_or, not_lt, not_lt] at hrange
    refine ⟨hrange.1, fun t ht => ?_⟩
    split at h
    · -- Once.
      obtain rfl := Except.ok.inj h
      split at ht
      · next hat =>
        obtain rfl := List.mem_singleton.mp ht
        exact hat.1
      · cases ht
    · split at h
      · -- An interval: its start or the first multiple behind the instant.
        split at h
        · cases h
        · next hinterval =>
          obtain rfl := Except.ok.inj h
          obtain ⟨i, -, rfl⟩ := List.mem_map.mp ht
          simp only [not_or, not_lt, kSecondsPerMinute] at hinterval
          have hpos : 0 < interval := by omega
          have hnext : after < next := by
            simp only [next]
            split_ifs
            · assumption
            · have := Int.lt_ediv_add_one_mul_self (after - start) hpos
              omega
          have hstep : 0 ≤ (i : Int) * interval := mul_nonneg (Int.natCast_nonneg i) hpos.le
          exact lt_of_lt_of_le hnext (le_add_of_nonneg_right hstep)
      · split at h
        · -- Weekly: only later candidates are kept.
          split at h
          · cases h
          · split at h
            · cases h
            · split at h
              · cases h
              · split at h
                · cases h
                · split at h
                  · cases h
                  · obtain rfl := Except.ok.inj h
                    obtain ⟨offset, -, hoffset⟩ := List.mem_filterMap.mp (List.mem_of_mem_take ht)
                    unfold weeklyTime at hoffset
                    extract_lets at hoffset
                    split at hoffset
                    · cases hoffset
                    · split at hoffset
                      · exact Option.some.inj hoffset ▸ ‹_›
                      · cases hoffset
        · cases h

theorem scheduleTimes_later {env : ScheduleEnv} {schedule : Json} {after : Int} {times : List Int}
    (h : scheduleTimes env schedule after = .ok times) : 0 ≤ after ∧ ∀ t ∈ times, after < t := by
  rw [scheduleTimes] at h
  split at h
  · split at h
    · cases h
    · exact scheduleCalendar_later h
  · exact scheduleCalendar_later h

/-- An enabled task has a next time. -/
def EnabledTimes (tasks : List ScheduleTask) : Prop :=
  ∀ task ∈ tasks, task.enabled = true → 0 < task.next

/-- What is recorded of a task lies before its next time. -/
def Ahead (recorded : List (Bytes × Int)) (tasks : List ScheduleTask) : Prop :=
  ∀ task ∈ tasks, task.next ≠ 0 → ∀ o ∈ recorded, o.1 = task.id → o.2 < task.next

/-- The task whose next time a save or a resume sets. -/
def timedTask (env : ScheduleEnv) (request : Json) : Bytes :=
  let id := jsonValueStr request (lit "key") []
  if id = [] then env.taskId else id

/-- Whether a request sets a task's next time by the clock. -/
def setsTime (request : Json) : Bool :=
  let action := jsonValueStr request (lit "action") []
  action = lit "save" || action = lit "resume"

/-- A task after a person's operation: as it was, paused, or with the time
after now that the operation set. -/
inductive TaskAfter (env : ScheduleEnv) (timed : Bytes → Prop) (before : List ScheduleTask)
    (task : ScheduleTask) : Prop
  | kept (h : task ∈ before)
  | paused (was : ScheduleTask) (h : was ∈ before) (id : task.id = was.id)
      (next : task.next = was.next) (enabled : task.enabled = false)
  | timed (h : timed task.id) (schedule : Json) (upcoming : List Int)
      (times : scheduleTimes env schedule env.now = .ok (task.next :: upcoming))

theorem save_tasks {env : ScheduleEnv} {store : Schedules} {request : Json} {id : Bytes}
    {timed : Bytes → Prop} (htimed : timed (if id = [] then env.taskId else id))
    (hreply : (scheduleSave env store request id).1.isError = false) {task : ScheduleTask}
    (h : task ∈ (scheduleSave env store request id).2.tasks) :
    TaskAfter env timed store.tasks task := by
  rcases scheduleSave_cases env store request id with
    herror | ⟨saved, schedule, upcoming, hsave, hid, htimes⟩
  · rw [herror] at hreply
    cases hreply
  · have hsaved : TaskAfter env timed store.tasks saved := .timed (hid ▸ htimed) _ _ htimes
    rw [hsave] at h
    change task ∈ (if _ then _ else _) at h
    split at h
    · rcases List.mem_append.mp h with h | h
      · exact .kept h
      · exact List.mem_singleton.mp h ▸ hsaved
    · rcases List.mem_modify_findIdx h with h | ⟨-, -, -, rfl⟩
      · exact .kept h
      · exact hsaved

theorem change_tasks {env : ScheduleEnv} {store : Schedules} {request : Json} {id action : Bytes}
    {found : ScheduleTask} (hfound : found ∈ store.tasks) {timed : Bytes → Prop}
    (htimed : action = lit "resume" → timed found.id)
    (hreply : (scheduleChange env store request id found action).1.isError = false)
    {task : ScheduleTask} (h : task ∈ (scheduleChange env store request id found action).2.tasks) :
    TaskAfter env timed store.tasks task := by
  rcases scheduleChange_cases env store request id found action with
    herror | ⟨-, hsub | ⟨changed, htasks, hid, hchanged⟩⟩
  · rw [herror] at hreply
    cases hreply
  · exact .kept (hsub.subset h)
  · rw [htasks] at h
    rcases List.mem_modify_findIdx h with h | ⟨-, -, -, rfl⟩
    · exact .kept h
    · rcases hchanged with ⟨henabled, hnext⟩ | ⟨hresume, schedule, upcoming, htimes⟩
      · exact .paused found hfound hid hnext henabled
      · exact .timed (hid ▸ htimed hresume) _ _ htimes

theorem Schedules.task_id_ne_nil {store : Schedules} (h : store.valid = true) {task : ScheduleTask}
    (htask : task ∈ store.tasks) : task.id ≠ [] := by
  simp only [Schedules.valid, Bool.and_eq_true] at h
  have := List.all_eq_true.mp h.1.2 task htask
  simp only [Bool.and_eq_true, decide_eq_true_eq] at this
  exact this.1.1.1.1.1

theorem Schedules.task_ids_nodup {store : Schedules} (h : store.valid = true) :
    (store.tasks.map ScheduleTask.id).Nodup := by
  simp only [Schedules.valid, Bool.and_eq_true, decide_eq_true_eq] at h
  exact h.1.1.1.2

/-- The tasks after a person's operation. -/
theorem control_tasks (env : ScheduleEnv) (request : Json) (store : Schedules)
    {task : ScheduleTask} (h : task ∈ (scheduleControl env request store).2.tasks) :
    TaskAfter env (fun id => setsTime request = true ∧ id = timedTask env request) store.tasks
      task := by
  rw [scheduleControl] at h
  split at h
  · rcases mutate_cases env (scheduleControlChange env request) store with
      ⟨-, hsame⟩ | ⟨-, hvalid, hreply, htasks, -⟩
    · rw [hsame] at h
      exact .kept h
    · rw [htasks] at h
      rcases scheduleControlChange_cases env request store with
        herror | hstop | ⟨haction, hsave⟩ | ⟨found, hfound, hid, hrun | hchange⟩
      · rw [herror] at hreply
        cases hreply
      · rw [hstop, scheduleStop] at h
        extract_lets at h
        split at h <;> exact .kept h
      · rw [hsave] at hreply h
        refine save_tasks ⟨?_, rfl⟩ hreply h
        rw [setsTime, haction]
        rfl
      · rw [hrun, scheduleRun] at h
        split_ifs at h <;> exact .kept h
      · rw [hchange] at hreply h
        refine change_tasks hfound (fun hresume => ⟨?_, ?_⟩) hreply h
        · rw [setsTime, hresume]
          rfl
        · rw [timedTask, ← hid]
          exact (if_neg (Schedules.task_id_ne_nil hvalid hfound)).symm
  · exact .kept h

/-- A time set by the clock lies after it. -/
theorem times_head {env : ScheduleEnv} {schedule : Json} {after next : Int} {upcoming : List Int}
    (h : scheduleTimes env schedule after = .ok (next :: upcoming)) : 0 < next ∧ after < next := by
  obtain ⟨hafter, hall⟩ := scheduleTimes_later h
  have := hall next List.mem_cons_self
  exact ⟨by omega, this⟩

theorem EnabledTimes.control {env : ScheduleEnv} {request : Json} {store : Schedules}
    (h : EnabledTimes store.tasks) : EnabledTimes (scheduleControl env request store).2.tasks := by
  intro task htask henabled
  cases control_tasks env request store htask with
  | kept htask => exact h task htask henabled
  | paused _ _ _ _ hdisabled =>
    rw [hdisabled] at henabled
    cases henabled
  | timed _ _ _ htimes => exact (times_head htimes).1

theorem Ahead.control {env : ScheduleEnv} {request : Json} {store : Schedules}
    {recorded : List (Bytes × Int)} (h : Ahead recorded store.tasks)
    (hclock : setsTime request = true →
      ∀ o ∈ recorded, o.1 = timedTask env request → o.2 ≤ env.now) :
    Ahead recorded (scheduleControl env request store).2.tasks := by
  intro task htask hnext o ho hid
  cases control_tasks env request store htask with
  | kept htask => exact h task htask hnext o ho hid
  | paused was hwas hsame hkeep _ =>
    rw [hkeep] at hnext ⊢
    exact h was hwas hnext o ho (hid.trans hsame)
  | timed htimed _ _ htimes =>
    exact lt_of_le_of_lt (hclock htimed.1 o ho (hid.trans htimed.2)) (times_head htimes).2

/-! ### What a claim does to the tasks -/

theorem claimTasks_fst {env : ScheduleEnv} {now : Int} {made : Nat} {tasks : List ScheduleTask}
    {task' : ScheduleTask} (h : task' ∈ (claimTasks env now runs made tasks).1) :
    ∃ task ∈ tasks, ∃ runs made, task' = (claimTask env now runs made task).1 := by
  induction tasks generalizing runs made with
  | nil => cases h
  | cons task tasks ih =>
    rcases List.mem_cons.mp h with rfl | h
    · exact ⟨task, List.mem_cons_self, runs, made, rfl⟩
    · obtain ⟨task, htask, h⟩ := ih h
      exact ⟨task, List.mem_cons_of_mem _ htask, h⟩

theorem claimTasks_ids (env : ScheduleEnv) (now : Int) (made : Nat) (tasks : List ScheduleTask) :
    (claimTasks env now runs made tasks).1.map ScheduleTask.id = tasks.map ScheduleTask.id := by
  induction tasks generalizing runs made with
  | nil => rfl
  | cons task tasks ih =>
    rw [claimTasks, List.map_cons, List.map_cons, ih]
    rcases claimTask_cases env now runs made task with
      ⟨-, h⟩ | ⟨-, claimed, h, hid, -⟩ | ⟨-, claimed, status, times, h, hid, -⟩
    · rw [h]
    · rw [h, hid]
    · rw [h, hid]

/-- A run a claim made: of a due task, for its next time. -/
theorem claimTasks_snd {env : ScheduleEnv} {now : Int} {made : Nat} {tasks : List ScheduleTask}
    {run : ScheduledRun} (h : run ∈ (claimTasks env now runs made tasks).2) :
    ∃ task ∈ tasks, task.due now = true ∧ run.taskId = task.id ∧ run.scheduledFor = task.next ∧
      ∃ times, scheduleTimes env task.schedule now = .ok times := by
  induction tasks generalizing runs made with
  | nil => cases h
  | cons task tasks ih =>
    rw [claimTasks] at h
    rcases List.mem_append.mp h with h | h
    · rcases claimTask_cases env now runs made task with
        ⟨-, hclaim⟩ | ⟨-, claimed, hclaim, -⟩ | ⟨hdue, claimed, status, times, hclaim, hid, htimes, -⟩
      · rw [hclaim] at h
        cases h
      · rw [hclaim] at h
        cases h
      · rw [hclaim] at h
        obtain rfl := List.mem_singleton.mp h
        exact ⟨task, List.mem_cons_self, hdue, hid, rfl, times, htimes⟩
    · obtain ⟨task, htask, h⟩ := ih h
      exact ⟨task, List.mem_cons_of_mem _ htask, h⟩

theorem claimTasks_taskIds (env : ScheduleEnv) (now : Int) (made : Nat)
    (tasks : List ScheduleTask) :
    (claimTasks env now runs made tasks).2.map ScheduledRun.taskId <+
      tasks.map ScheduleTask.id := by
  induction tasks generalizing runs made with
  | nil => exact .refl _
  | cons task tasks ih =>
    rw [claimTasks, List.map_append, List.map_cons]
    rcases claimTask_cases env now runs made task with
      ⟨-, h⟩ | ⟨-, claimed, h, -⟩ | ⟨-, claimed, status, times, h, hid, -⟩
    · rw [h]
      exact (ih _).cons _
    · rw [h]
      exact (ih _).cons _
    · rw [h]
      change claimed.id :: _ <+ _
      rw [hid]
      exact (ih _).cons_cons _

/-- **After a claim an enabled task's next time is later than the claim's.** -/
theorem claimTasks_later {env : ScheduleEnv} {now : Int} {made : Nat} {tasks : List ScheduleTask}
    (htasks : EnabledTimes tasks) {task' : ScheduleTask}
    (h : task' ∈ (claimTasks env now runs made tasks).1) (henabled : task'.enabled = true) :
    0 < task'.next ∧ now < task'.next := by
  obtain ⟨task, htask, runs', made', rfl⟩ := claimTasks_fst h
  rcases claimTask_cases env now runs' made' task with
    ⟨hdue, h⟩ | ⟨-, claimed, h, -, -, hdisabled, -⟩ |
      ⟨-, claimed, status, times, h, -, htimes, hnext, hne, -⟩
  · rw [h] at henabled ⊢
    have hpos := htasks task htask henabled
    simp only [ScheduleTask.due, Bool.and_eq_false_iff, decide_eq_false_iff_not] at hdue
    refine ⟨hpos, ?_⟩
    rcases hdue with (hdue | hdue) | hdue
    · exact absurd (hdue.symm.trans henabled) Bool.false_ne_true
    · exact absurd hpos.ne' hdue
    · exact not_le.mp hdue
  · rw [h, hdisabled] at henabled
    cases henabled
  · rw [h] at henabled ⊢
    cases times with
    | nil => exact absurd rfl (hne henabled)
    | cons next upcoming =>
      rw [hnext]
      exact times_head htimes

/-! ### Any sequence of operations -/

/-- An operation on the stored schedule. -/
inductive ScheduleOp where
  /-- save, run now, pause, resume, forget or stop -/
  | control (request : Json)
  | claim (now : Int) (slots : Nat)
  | update (id status error : Bytes)

/-- The stored schedule, and the occurrences its claims recorded: a task and
the time that was due. -/
structure Scheduler where
  store : Schedules := {}
  recorded : List (Bytes × Int) := []

namespace Scheduler

/-- The occurrences a claim records. -/
def claimed (env : ScheduleEnv) (now : Int) (slots : Nat) (store : Schedules) :
    List (Bytes × Int) :=
  if (claimScheduledRuns env now slots store).1.isError then []
  else
    (claimTasks env now store.runs 0 store.tasks).2.map fun run => (run.taskId, run.scheduledFor)

def step (s : Scheduler) : ScheduleEnv × ScheduleOp → Scheduler
  | (env, .control request) => { s with store := (scheduleControl env request s.store).2 }
  | (env, .claim now slots) =>
    { store := (claimScheduledRuns env now slots s.store).2
      recorded := s.recorded ++ claimed env now slots s.store }
  | (env, .update id status error) =>
    { s with store := (updateScheduledRun env id status error s.store).2 }

/-- The clock that save or resume reads is not behind a recorded occurrence
of the task. -/
def ClockAhead (s : Scheduler) : ScheduleEnv × ScheduleOp → Prop
  | (env, .control request) => setsTime request = true →
      ∀ o ∈ s.recorded, o.1 = timedTask env request → o.2 ≤ env.now
  | _ => True

instance (s : Scheduler) : DecidablePred (ClockAhead s)
  | (_, .control _) => inferInstanceAs (Decidable (_ → _))
  | (_, .claim _ _) => isTrue trivial
  | (_, .update _ _ _) => isTrue trivial

theorem runMoves_step (s : Scheduler) (event : ScheduleEnv × ScheduleOp) :
    RunMoves event.1.makes s.store.runs (s.step event).store.runs := by
  rcases event with ⟨env, request | ⟨now, slots⟩ | ⟨id, status, error⟩⟩
  · exact runMoves_control env request s.store
  · exact runMoves_claim env now slots s.store
  · exact runMoves_update env id status error s.store

/-- What a claim leaves of the tasks when it is not refused. -/
theorem claim_tasks {env : ScheduleEnv} {now : Int} {slots : Nat} {store : Schedules}
    (h : (claimScheduledRuns env now slots store).1.isError = false) :
    store.valid = true ∧ (claimScheduledRuns env now slots store).2.tasks =
      (claimTasks env now store.runs 0 store.tasks).1 := by
  rcases mutate_cases env (claimChange env now slots) store with
    ⟨herror, -⟩ | ⟨-, hvalid, -, htasks, -⟩
  · exact absurd (herror.symm.trans h) Bool.true_eq_false.mp
  · exact ⟨hvalid, htasks⟩

theorem claim_refused {env : ScheduleEnv} {now : Int} {slots : Nat} {store : Schedules}
    (h : (claimScheduledRuns env now slots store).1.isError = true) :
    (claimScheduledRuns env now slots store).2 = store := by
  rcases mutate_cases env (claimChange env now slots) store with ⟨-, hsame⟩ | ⟨hok, -⟩
  · exact hsame
  · exact absurd (h.symm.trans hok) Bool.true_eq_false.mp

theorem update_tasks (env : ScheduleEnv) (id status error : Bytes) (store : Schedules) :
    (updateScheduledRun env id status error store).2.tasks = store.tasks := by
  rcases mutate_cases env _ store with ⟨-, hsame⟩ | ⟨-, -, -, htasks, -⟩
  · exact congrArg Schedules.tasks hsame
  · exact htasks

theorem enabledTimes_step {s : Scheduler} (h : EnabledTimes s.store.tasks)
    (event : ScheduleEnv × ScheduleOp) : EnabledTimes (s.step event).store.tasks := by
  rcases event with ⟨env, request | ⟨now, slots⟩ | ⟨id, status, error⟩⟩
  · exact h.control
  · cases hclaim : (claimScheduledRuns env now slots s.store).1.isError with
    | true =>
      rw [step, claim_refused hclaim]
      exact h
    | false =>
      rw [step, (claim_tasks hclaim).2]
      exact fun task htask henabled => (claimTasks_later h htask henabled).1
  · rw [step, update_tasks]
    exact h

/-- The occurrences recorded so far, each once and before the next time of
its task. -/
structure Recorded (s : Scheduler) : Prop where
  once : s.recorded.Nodup
  ahead : Ahead s.recorded s.store.tasks

/-- A claim records occurrences that were not recorded before. -/
theorem Recorded.claim {s : Scheduler} (h : Recorded s) (env : ScheduleEnv) (now : Int)
    (slots : Nat) : Recorded (s.step (env, .claim now slots)) := by
  cases hclaim : (claimScheduledRuns env now slots s.store).1.isError with
  | true =>
    have hsame : s.step (env, .claim now slots) = s := by
      simp only [step, claimed, claim_refused hclaim, hclaim, if_true, List.append_nil]
    rw [hsame]
    exact h
  | false =>
    obtain ⟨hvalid, htasks⟩ := claim_tasks hclaim
    have hids := Schedules.task_ids_nodup hvalid
    have hdue : ∀ o ∈ claimed env now slots s.store, ∃ task ∈ s.store.tasks,
        task.due now = true ∧ o = (task.id, task.next) ∧
          ∃ times, scheduleTimes env task.schedule now = .ok times := by
      intro o ho
      rw [claimed, hclaim] at ho
      obtain ⟨run, hrun, rfl⟩ := List.mem_map.mp ho
      obtain ⟨task, htask, hdue, hid, hnext, htimes⟩ := claimTasks_snd hrun
      exact ⟨task, htask, hdue, by rw [hid, hnext], htimes⟩
    refine ⟨List.nodup_append.mpr ⟨h.once, ?_, ?_⟩, ?_⟩
    · -- One occurrence for a task.
      rw [claimed, hclaim, if_neg Bool.false_ne_true]
      refine List.Nodup.of_map Prod.fst ?_
      rw [List.map_map]
      exact hids.sublist (claimTasks_taskIds env now 0 s.store.tasks)
    · -- What is recorded lies before the time that is due now.
      rintro o ho o' ho' rfl
      obtain ⟨task, htask, hdue, rfl, -⟩ := hdue o ho'
      simp only [ScheduleTask.due, Bool.and_eq_true, decide_eq_true_eq] at hdue
      exact absurd (h.ahead task htask hdue.1.2 _ ho rfl) (lt_irrefl _)
    · intro task' htask' hnext o ho hid
      rw [step, htasks] at htask'
      obtain ⟨task, htask, runs, made, rfl⟩ := claimTasks_fst htask'
      have hsame : ∀ other ∈ s.store.tasks, other.id = task.id → other = task :=
        fun other hother heq => List.inj_on_of_nodup_map hids hother htask heq
      rcases claimTask_cases env now runs made task with
        ⟨hnot, hclaimed⟩ | ⟨-, claimed, hclaimed, hcid, hcnext, -, hnone⟩ |
          ⟨hdueTask, claimed, status, times, hclaimed, hcid, htimes, hcnext, -⟩
      · rw [hclaimed] at hnext hid ⊢
        rcases List.mem_append.mp ho with ho | ho
        · exact h.ahead task htask hnext o ho hid
        · obtain ⟨other, hother, hdueOther, rfl, -⟩ := hdue o ho
          rw [hsame other hother hid, hnot] at hdueOther
          cases hdueOther
      · rw [hclaimed] at hnext hid ⊢
        rw [hcnext] at hnext ⊢
        rw [hcid] at hid
        rcases List.mem_append.mp ho with ho | ho
        · exact h.ahead task htask hnext o ho hid
        · obtain ⟨other, hother, -, rfl, times, htimes⟩ := hdue o ho
          rw [hsame other hother hid] at htimes
          exact absurd htimes (hnone times)
      · rw [hclaimed] at hnext hid ⊢
        rw [hcid] at hid
        simp only [ScheduleTask.due, Bool.and_eq_true, decide_eq_true_eq] at hdueTask
        have hbefore : o.2 ≤ now := by
          rcases List.mem_append.mp ho with ho | ho
          · exact (h.ahead task htask hdueTask.1.2 o ho hid).le.trans hdueTask.2
          · obtain ⟨other, hother, -, rfl, -⟩ := hdue o ho
            rw [hsame other hother hid]
            exact hdueTask.2
        rw [hcnext] at hnext ⊢
        cases times with
        | nil => exact absurd rfl hnext
        | cons next upcoming => exact lt_of_le_of_lt hbefore (times_head htimes).2

theorem Recorded.step {s : Scheduler} (h : Recorded s) (event : ScheduleEnv × ScheduleOp)
    (hclock : ClockAhead s event) : Recorded (s.step event) := by
  rcases event with ⟨env, request | ⟨now, slots⟩ | ⟨id, status, error⟩⟩
  · exact ⟨h.once, h.ahead.control hclock⟩
  · exact h.claim env now slots
  · refine ⟨h.once, ?_⟩
    rw [Scheduler.step, update_tasks]
    exact h.ahead

/-- Any sequence of operations is a chain of moves on the runs. -/
theorem runMoves_run (s : Scheduler) (events : List (ScheduleEnv × ScheduleOp)) :
    RunMoves (fun id => ∃ event ∈ events, event.1.makes id) s.store.runs
      (events.foldl step s).store.runs := by
  induction events generalizing s with
  | nil => exact Relation.ReflTransGen.refl
  | cons event events ih =>
    have hfirst : RunMoves (fun id => ∃ e ∈ event :: events, e.1.makes id) s.store.runs
        (s.step event).store.runs :=
      (runMoves_step s event).mono fun id hid => ⟨event, List.mem_cons_self, hid⟩
    have hrest : RunMoves (fun id => ∃ e ∈ event :: events, e.1.makes id) (s.step event).store.runs
        (events.foldl step (s.step event)).store.runs :=
      (ih _).mono fun id hid => by
        obtain ⟨e, he, hid⟩ := hid
        exact ⟨e, List.mem_cons_of_mem _ he, hid⟩
    exact hfirst.trans hrest

theorem enabledTimes_run {s : Scheduler} (h : EnabledTimes s.store.tasks)
    (events : List (ScheduleEnv × ScheduleOp)) :
    EnabledTimes (events.foldl step s).store.tasks := by
  induction events generalizing s with
  | nil => exact h
  | cons event events ih => exact ih (enabledTimes_step h event)

end Scheduler

/-- **Schedules are sound** over any sequence of operations.  Each task has at
most one active run; from any point on runs only advance, drop out or are
new; an occurrence is recorded once, as long as save and resume read a clock
that is not behind one recorded of their task; and after a claim that is not
refused the next time of every enabled task is later than the claim's. -/
theorem schedules_sound (events later : List (ScheduleEnv × ScheduleOp)) :
    let s := events.foldl Scheduler.step {}
    (∀ task, s.store.runs.countP (fun run => run.taskId = task && run.active) ≤ 1) ∧
      List.Evolves Advance (fun run => ∃ event ∈ later, event.1.makes run.id) s.store.runs
        (later.foldl Scheduler.step s).store.runs ∧
      (Run.AllOk Scheduler.step Scheduler.ClockAhead {} events → s.recorded.Nodup) ∧
      ∀ env now slots, (claimScheduledRuns env now slots s.store).1.isError = false →
        (claimScheduledRuns env now slots s.store).2.tasks.map ScheduleTask.id =
            s.store.tasks.map ScheduleTask.id ∧
          ∀ task ∈ (claimScheduledRuns env now slots s.store).2.tasks,
            task.enabled = true → now < task.next := by
  intro s
  refine ⟨?_, (Scheduler.runMoves_run s later).evolves, fun hclock => ?_, ?_⟩
  · exact ((Scheduler.runMoves_run {} events).exclusive .nil).countP_le
  · have hstart : Scheduler.Recorded {} :=
      ⟨List.nodup_nil, fun _ htask => absurd htask List.not_mem_nil⟩
    exact (Run.invariant hstart (fun s e h hok => h.step e hok) (Run.of_allOk hclock)).once
  · intro env now slots hclaim
    have henabled : EnabledTimes s.store.tasks :=
      Scheduler.enabledTimes_run (fun _ htask => absurd htask List.not_mem_nil) events
    rw [(Scheduler.claim_tasks hclaim).2]
    exact ⟨claimTasks_ids env now 0 s.store.tasks,
      fun task htask hon => (claimTasks_later henabled htask hon).2⟩

/-! ### A clock set back -/

/-- An environment at a time; `tag` tells its identifiers from others. -/
def scheduleEnvAt (now : Int) (tag : UInt8) : ScheduleEnv where
  calendar := ⟨fun _ => false, fun _ _ => none, fun _ local_ => (-1, local_)⟩
  now := now
  runId n := [tag, UInt8.ofNat n]
  taskId := lit "task"
  taskRevision := [tag]
  storeRevision := [tag]
  canonicalDirectory := some
  planLaunch project _ _ id := (project, id)
  sessionIdFor := id

/-- Saves a task that is to run once, at 2000. -/
def saveOnce : Json :=
  .ofFields [(lit "action", .str (lit "save")), (lit "revision", .str []),
    (lit "task", .ofFields [(lit "name", .str (lit "backup")), (lit "prompt", .str (lit "back up")),
      (lit "cwd", .str (lit "/home")),
      (lit "schedule", .ofFields [(lit "type", .str (lit "once")), (lit "at", .uint 2000)])])]

/-- Resumes the saved task. -/
def resumeOnce : Json :=
  .ofFields [(lit "action", .str (lit "resume")), (lit "key", .str (lit "task")),
    (lit "revision", .str [1])]

/-- The task is saved, runs at its time, and is resumed at `clock`. -/
def onceEvents (clock : Int) : List (ScheduleEnv × ScheduleOp) :=
  [(scheduleEnvAt 1000 1, .control saveOnce), (scheduleEnvAt 2000 2, .claim 2000 2),
    (scheduleEnvAt clock 3, .control resumeOnce), (scheduleEnvAt 2000 4, .claim 2000 2)]

/-- Saves a task that is to run every ten minutes. -/
def saveEvery : Json :=
  .ofFields [(lit "action", .str (lit "save")), (lit "revision", .str []),
    (lit "task", .ofFields [(lit "name", .str (lit "backup")), (lit "prompt", .str (lit "back up")),
      (lit "cwd", .str (lit "/home")),
      (lit "schedule", .ofFields [(lit "type", .str (lit "interval")),
        (lit "seconds", .uint 600), (lit "start", .uint 100)])])]

/-- A change of the saved task, of the revision its caller saw. -/
def changeTask (action : Bytes) (revision : UInt8) : Json :=
  .ofFields [(lit "action", .str action), (lit "key", .str (lit "task")),
    (lit "revision", .str [revision])]

/-- The task is saved, claimed at its time, paused, resumed after the time that
passed meanwhile, and claimed again. -/
def everyEvents : List (ScheduleEnv × ScheduleOp) :=
  [(scheduleEnvAt 1000 1, .control saveEvery), (scheduleEnvAt 1300 2, .claim 1300 2),
    (scheduleEnvAt 1400 3, .control (changeTask (lit "pause") 1)),
    (scheduleEnvAt 2000 4, .control (changeTask (lit "resume") 3)),
    (scheduleEnvAt 2500 5, .claim 2500 2)]

/-- The system after these. -/
def everyScheduler : Scheduler := everyEvents.foldl Scheduler.step {}

/-- The resume is taken, at a clock that has gone on: the two occurrences are
recorded once each, and a claim at the third leaves a later time. -/
theorem schedules_sound_every :
    everyScheduler.recorded = [(lit "task", 1300), (lit "task", 2500)] ∧
      everyScheduler.recorded.Nodup ∧
      (everyScheduler.store.runs.countP fun run => run.taskId = lit "task" && run.active) ≤ 1 ∧
      ∀ task ∈ (claimScheduledRuns (scheduleEnvAt 3100 6) 3100 2 everyScheduler.store).2.tasks,
        task.enabled = true → 3100 < task.next := by
  have hrun : everyEvents.foldl Scheduler.step {} = everyScheduler := rfl
  obtain ⟨hactive, -, hrecorded, hclaim⟩ := hrun ▸ schedules_sound everyEvents []
  have hahead : Run.AllOk Scheduler.step Scheduler.ClockAhead {} everyEvents := by decide +kernel
  have htaken : (claimScheduledRuns (scheduleEnvAt 3100 6) 3100 2 everyScheduler.store).1.isError =
      false := by decide +kernel
  exact ⟨by decide +kernel, hrecorded hahead, hactive (lit "task"),
    (hclaim (scheduleEnvAt 3100 6) 3100 2 htaken).2⟩

/-- **A clock set back** between a claim and a resume lets the same occurrence
be recorded again; and a task that ran for the last time has no later
time. -/
theorem schedules_clock_back :
    (¬∀ events : List (ScheduleEnv × ScheduleOp),
      (events.foldl Scheduler.step {}).recorded.Nodup) ∧
    ¬∀ (events : List (ScheduleEnv × ScheduleOp)) (env : ScheduleEnv) (now : Int) (slots : Nat),
      (claimScheduledRuns env now slots (events.foldl Scheduler.step {}).store).1.isError = false →
        ∀ task ∈ (claimScheduledRuns env now slots (events.foldl Scheduler.step {}).store).2.tasks,
          now < task.next := by
  constructor
  · intro h
    have hrecorded : ((onceEvents 1500).foldl Scheduler.step {}).recorded =
        [(lit "task", 2000), (lit "task", 2000)] := by
      decide
    have hnodup := h (onceEvents 1500)
    rw [hrecorded] at hnodup
    exact absurd hnodup (by decide)
  · intro h
    have hall := h [(scheduleEnvAt 1000 1, .control saveOnce)] (scheduleEnvAt 2000 2) 2000 2
      (by decide)
    exact absurd hall (by decide)

end UAgent
