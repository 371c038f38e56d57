/-
UAgent/Agent/ActivitySupervisor.lean

A conversation's activities, from registration to the result that rejoins the
turn (src/agent/activity_supervisor.cc).

The supervisor keeps three lists under one mutex; an activity may have a
session, shared by address, with a mutex of its own.  Each locked section is
one step, and the steps of waits, drains, stops, the commands' own threads and
the I/O loop come in any order.  `TakeCompleted` looks at an activity and
takes it in two sections, so it is two steps.

A reservation is outstanding as long as it holds its supervisor.  An activity
that carries no id of its own gets the supervisor's next one; a detached
activity is known by its pid.  What was registered, what came to the
background and what was taken from it is recorded beside the lists, and each
registration has a serial number there.

Main result: `activities_accounted`.
-/
import UAgent.Base.Run
import UAgent.Base.Placement
import Mathlib.Algebra.Ring.Int.Defs
import Mathlib.Data.List.Perm.Basic
import Mathlib.Data.List.Nodup
import Mathlib.Order.Lattice
import Mathlib.Order.Defs.LinearOrder

namespace UAgent

/-! ### Sessions -/

/-- `ActivityState`. -/
inductive ActivityState
  | starting
  | running
  | exited
  | drained
  | delivered
  | stopped
deriving DecidableEq

/-- `ActivityTerminal`. -/
def activityTerminal (state : ActivityState) : Bool :=
  state = .drained || state = .delivered || state = .stopped

/-- The states an activity may go to from a state. -/
def ActivityState.allows : ActivityState → ActivityState → Bool
  | .starting, next => next = .running || next = .exited || next = .stopped
  | .running, next => next = .exited || next = .stopped
  | .exited, next => next = .drained || next = .stopped
  | .drained, next => next = .delivered
  | .delivered, _ | .stopped, _ => false

/-- `TransitionActivityLocked`: the state, and whether the transition was
allowed. -/
def transitionActivity (current next : ActivityState) : ActivityState × Bool :=
  if current = next then (current, true)
  else if current.allows next then (next, true)
  else (current, false)

/-- `ActivitySession`, without its descriptors and output. -/
structure ActivitySession where
  state : ActivityState := .starting
  /-- `wait_status.has_value()` -/
  waitStatus : Bool := false
  outputEof : Bool := false
  stopRequested : Bool := false
  lastUsed : Int := 0

namespace ActivitySession

def transition (session : ActivitySession) (next : ActivityState) : ActivitySession :=
  { session with state := (transitionActivity session.state next).1 }

/-- The I/O loop reads output. -/
def output (session : ActivitySession) : ActivitySession :=
  if session.state = .starting then session.transition .running else session

/-- The I/O loop finds that the process ended. -/
def reaped (session : ActivitySession) : ActivitySession :=
  if session.waitStatus then session
  else { session with waitStatus := true }.transition .exited

/-- The I/O loop ends a session whose output has ended, or whose grace for
trailing output is over. -/
def settle (session : ActivitySession) (graceOver : Bool) : ActivitySession :=
  if session.waitStatus && (session.outputEof || graceOver) then
    session.transition (if session.stopRequested then .stopped else .drained)
  else session

/-- `ToolActivityStop` asks for the end of an activity that goes on. -/
def requestStop (session : ActivitySession) : ActivitySession :=
  if activityTerminal session.state then session else { session with stopRequested := true }

/-- `Take` delivers. -/
def deliver (session : ActivitySession) (now : Int) : ActivitySession :=
  { session.transition .delivered with lastUsed := now }

/-- The states an activity ends in for good. -/
def Settled (session : ActivitySession) : Prop :=
  session.state = .delivered ∨ session.state = .stopped

end ActivitySession

/-! ### The supervisor -/

/-- `ActivityKind`. -/
inductive ActivityKind
  | command
  | memory
  | detached
deriving DecidableEq

/-- `Activity`: what tells it apart, and its session. -/
structure Activity where
  pid : Int
  kind : ActivityKind := .command
  id : Int := 0
  session : Option Nat := none
  /-- which registration it is -/
  serial : Nat := 0
deriving DecidableEq

namespace Activity

def detached (job : Activity) : Bool := job.kind = .detached

/-- `ActivityId`. -/
def activityId (job : Activity) : Int := if 0 < job.id then job.id else job.pid

end Activity

/-- `kRetainedActivities`. -/
def kRetainedActivities : Nat := 16

structure ActivitySupervisor where
  activities : List Activity := []
  foreground : List Activity := []
  retained : List Activity := []
  stopping : Bool := false
  reservations : Int := 0
  nextId : Int := 2 ^ 30
  sessions : Nat → ActivitySession := fun _ => {}
  /-- the ids of the reservations that hold their supervisor -/
  outstanding : List Int := []
  /-- every activity registered -/
  registered : List Activity := []
  /-- those that came to the background -/
  entered : List Activity := []
  /-- those a `Take` returned -/
  taken : List Activity := []
  /-- those that are in no list any more -/
  gone : List Activity := []
  /-- those that a `TakeCompleted` is about to take -/
  candidates : List Activity := []
  /-- those whose completion it returned -/
  completions : List Activity := []

namespace ActivitySupervisor

/-- A locked section of a session. -/
def onSession (s : ActivitySupervisor) (address : Nat)
    (change : ActivitySession → ActivitySession) : ActivitySupervisor :=
  { s with sessions := Function.update s.sessions address (change (s.sessions address)) }

/-- The foreground and the background without the detached. -/
def live (s : ActivitySupervisor) : Nat :=
  s.foreground.length + s.activities.countP fun job => !job.detached

/-- `ReserveActivity`. -/
def reserveActivity (maxPending : Int) (s : ActivitySupervisor) : ActivitySupervisor :=
  if maxPending ≤ s.live + s.reservations then s
  else
    { s with
      reservations := s.reservations + 1
      nextId := s.nextId + 1
      outstanding := s.outstanding ++ [s.nextId] }

/-- `ReleaseReservation`, of a reservation that holds its supervisor. -/
def release (s : ActivitySupervisor) (reservation : Int) : ActivitySupervisor :=
  if reservation ∈ s.outstanding then
    { s with
      outstanding := s.outstanding.erase reservation
      reservations := if 0 < s.reservations then s.reservations - 1 else s.reservations }
  else s

/-- `AssignId`, and the registration's number. -/
def assignId (s : ActivitySupervisor) (job : Activity) : Activity × ActivitySupervisor :=
  let issue := job.id ≤ 0 ∧ job.detached = false
  let id := if job.id ≤ 0 then if job.detached then job.pid else s.nextId else job.id
  let job := { job with id := id, serial := s.registered.length }
  (job, { s with
    nextId := if issue then s.nextId + 1 else s.nextId
    registered := s.registered ++ [job] })

/-- `ActivityReservation::Register` and `CommitReservation`: a command carries
its reservation's id, or none. -/
def register (s : ActivitySupervisor) (reservation : Int) (named : Bool) (job : Activity) :
    ActivitySupervisor :=
  if reservation ∈ s.outstanding then
    let s := { s with outstanding := s.outstanding.erase reservation }
    if s.reservations ≤ 0 then s
    else
      let s := { s with reservations := s.reservations - 1 }
      if s.stopping then s
      else
        let (job, s) := s.assignId { job with id := if named then reservation else 0 }
        { s with foreground := s.foreground ++ [job] }
  else s

/-- Whether there is no room for an activity: the detached are counted on
their own. -/
def full (maxPending : Int) (s : ActivitySupervisor) (job : Activity) : Bool :=
  if job.detached then maxPending ≤ s.activities.countP fun job => job.detached
  else maxPending ≤ s.live + s.reservations

/-- `TryAdd`. -/
def tryAdd (maxPending : Int) (s : ActivitySupervisor) (job : Activity) : ActivitySupervisor :=
  if s.full maxPending job then s
  else
    let (job, s) := s.assignId { job with id := 0 }
    { s with activities := s.activities ++ [job], entered := s.entered ++ [job] }

/-- `RemoveForeground`. -/
def removeForeground (s : ActivitySupervisor) (pid : Int) : ActivitySupervisor :=
  match s.foreground.firstMatch fun job => job.pid = pid with
  | some (pre, job, post) => { s with foreground := pre ++ post, gone := s.gone ++ [job] }
  | none => s

/-- `MoveForegroundToBackground`. -/
def moveForegroundToBackground (s : ActivitySupervisor) (pid : Int) : ActivitySupervisor :=
  match s.foreground.firstMatch fun job => job.pid = pid with
  | some (pre, job, post) =>
    { s with
      foreground := pre ++ post
      activities := s.activities ++ [job]
      entered := s.entered ++ [job] }
  | none => s

/-- The retained activity used least recently, of those nobody interacts
with. -/
def oldest (s : ActivitySupervisor) (busy : Activity → Bool) : Option Activity :=
  s.retained.foldl (fun best job =>
    match job.session with
    | none => best
    | some address =>
      if busy job then best
      else
        match best with
        | none => some job
        | some other =>
          if (s.sessions address).lastUsed < (other.session.elim 0 fun a => (s.sessions a).lastUsed)
          then some job else some other) none

/-- `PruneRetainedLocked`: one activity a round, at most as many as there are.
`busy` says which interaction locks are held in which round. -/
def pruneRetained (busy : Nat → Activity → Bool) : Nat → ActivitySupervisor → ActivitySupervisor
  | 0, s => s
  | n + 1, s =>
    if s.retained.length ≤ kRetainedActivities then s
    else
      match s.oldest (busy n) with
      | none => s
      | some job =>
        pruneRetained busy n
          { s with retained := s.retained.erase job, gone := s.gone ++ [job] }

/-- `Take`, at the time `now`: the supervisor, and the activity taken. -/
def take (s : ActivitySupervisor) (id : Int) (retain : Bool) (now : Int)
    (busy : Nat → Activity → Bool) : ActivitySupervisor × Option Activity :=
  match s.activities.firstMatch fun job => job.activityId = id with
  | none => (s, none)
  | some (pre, job, post) =>
    match job.session, retain && !job.detached with
    | some address, true =>
      let state := (s.sessions address).state
      if state ≠ .stopped ∧ (transitionActivity state .delivered).2 = false then (s, none)
      else
        let t :=
          { s.onSession address (·.deliver now) with
            activities := pre ++ post
            retained := s.retained ++ [job]
            taken := s.taken ++ [job] }
        (pruneRetained busy t.retained.length t, some job)
    | _, _ =>
      ({ s with activities := pre ++ post, taken := s.taken ++ [job], gone := s.gone ++ [job] },
        some job)

/-- Whether an activity has completed; `ended` is what is found of a detached
one's processes. -/
def completed (s : ActivitySupervisor) (job : Activity) (ended : Bool) : Bool :=
  if job.detached then ended
  else job.session.elim true fun address => (s.sessions address).state = .drained

/-- `TakeCompleted` looks at an activity of its snapshot. -/
def look (s : ActivitySupervisor) (job : Activity) (ended : Bool) : ActivitySupervisor :=
  if s.completed job ended then { s with candidates := s.candidates ++ [job] } else s

/-- `TakeCompleted` takes an activity it looked at; another waiter may have
been faster. -/
def takeCompleted (s : ActivitySupervisor) (job : Activity) (now : Int)
    (busy : Nat → Activity → Bool) : ActivitySupervisor :=
  if job ∈ s.candidates then
    let s := { s with candidates := s.candidates.erase job }
    match s.take job.activityId true now busy with
    | (s, some taken) => { s with completions := s.completions ++ [taken] }
    | (s, none) => s
  else s

/-! ### Steps -/

inductive ActivityStep
  | reserve
  | release (reservation : Int)
  | register (reservation : Int) (named : Bool) (job : Activity)
  | tryAdd (job : Activity)
  | removeForeground (pid : Int)
  | moveForegroundToBackground (pid : Int)
  | take (id : Int) (retain : Bool) (now : Int) (busy : Nat → Activity → Bool)
  | look (job : Activity) (ended : Bool)
  | takeCompleted (job : Activity) (now : Int) (busy : Nat → Activity → Bool)
  /-- `RegisterIo` -/
  | registerIo (address : Nat)
  | output (address : Nat)
  | outputEof (address : Nat)
  | reaped (address : Nat)
  | settle (address : Nat) (graceOver : Bool)
  | requestStop (address : Nat)
  /-- `ToolActivityStop`, after the processes were ended -/
  | stop (address : Nat)
  /-- a tool used the session -/
  | use (address : Nat) (now : Int)
  /-- `stopping_` is set -/
  | stopping

/-- One step; every caller passes the same limit. -/
def step (limit : Int) (s : ActivitySupervisor) : ActivityStep → ActivitySupervisor
  | .reserve => s.reserveActivity limit
  | .release reservation => s.release reservation
  | .register reservation named job => s.register reservation named job
  | .tryAdd job => s.tryAdd limit job
  | .removeForeground pid => s.removeForeground pid
  | .moveForegroundToBackground pid => s.moveForegroundToBackground pid
  | .take id retain now busy => (s.take id retain now busy).1
  | .look job ended => s.look job ended
  | .takeCompleted job now busy => s.takeCompleted job now busy
  | .registerIo address => s.onSession address (·.transition .running)
  | .output address => s.onSession address (·.output)
  | .outputEof address => s.onSession address fun session => { session with outputEof := true }
  | .reaped address => s.onSession address (·.reaped)
  | .settle address graceOver => s.onSession address (·.settle graceOver)
  | .requestStop address => s.onSession address (·.requestStop)
  | .stop address => s.onSession address (·.transition .stopped)
  | .use address now => s.onSession address fun session => { session with lastUsed := now }
  | .stopping => { s with stopping := true }

/-- What is promised of the supervisor's books. -/
structure Accounted (limit : Int) (s : ActivitySupervisor) : Prop where
  /-- every activity registered is in exactly one list until it leaves -/
  placed : (s.foreground ++ s.activities ++ s.retained ++ s.gone).Perm s.registered ∧
    s.registered.Nodup
  /-- what came to the background is there still, or a `Take` has returned it,
  once -/
  kept : (s.activities ++ s.taken).Perm s.entered ∧ s.entered.Nodup
  /-- no id the supervisor issued is taken twice -/
  issued : ((s.taken.filter fun job => !job.detached).map (·.activityId)).Nodup
  /-- no completion is delivered twice, and each was taken -/
  completed : s.completions.Nodup ∧ ∀ job ∈ s.completions, job ∈ s.taken
  reserved : s.reservations = s.outstanding.length
  bounded : s.reservations + s.foreground.length +
    (s.activities.countP fun job => !job.detached) ≤ max limit 0

/-! ### What the operations do -/

section Operations

variable {s : ActivitySupervisor} {busy : Nat → Activity → Bool}

theorem oldest_mem {busy : Activity → Bool} {job : Activity} (h : s.oldest busy = some job) :
    job ∈ s.retained := by
  unfold oldest at h
  -- the best of a part of the list is one of that part, or the one it started with
  suffices hfold : ∀ (l : List Activity) (best : Option Activity), l.foldl _ best = some job →
      job ∈ l ∨ best = some job from
    (hfold s.retained none h).resolve_right nofun
  intro l
  induction l with
  | nil => exact fun best h => Or.inr h
  | cons a l ih =>
    intro best h
    rcases ih _ h with hl | hbest
    · exact Or.inl (List.mem_cons_of_mem a hl)
    · dsimp only at hbest
      split at hbest
      · exact Or.inr hbest
      split at hbest
      · exact Or.inr hbest
      split at hbest
      · exact Or.inl (Option.some.inj hbest ▸ List.mem_cons_self)
      split at hbest
      · exact Or.inl (Option.some.inj hbest ▸ List.mem_cons_self)
      · exact Or.inr hbest

/-- Pruning moves activities from the retained to those that are gone. -/
theorem pruneRetained_spec (busy : Nat → Activity → Bool) (n : Nat) (s : ActivitySupervisor) :
    ∃ kept dropped, pruneRetained busy n s =
        { s with retained := kept, gone := s.gone ++ dropped } ∧
      (kept ++ dropped).Perm s.retained := by
  induction n generalizing s with
  | zero => exact ⟨s.retained, [], by simp [pruneRetained], by simp⟩
  | succ n ih =>
    rw [pruneRetained]
    split
    · exact ⟨s.retained, [], by simp, by simp⟩
    split
    · exact ⟨s.retained, [], by simp, by simp⟩
    · rename_i job hjob
      rcases ih { s with retained := s.retained.erase job, gone := s.gone ++ [job] } with
        ⟨kept, dropped, heq, hperm⟩
      refine ⟨kept, job :: dropped, by simp [heq], ?_⟩
      exact List.perm_middle.trans ((hperm.cons job).trans
        (List.perm_cons_erase (oldest_mem hjob)).symm)

/-- A settled state is left by no transition. -/
theorem transition_settled {session : ActivitySession} (h : session.Settled)
    (next : ActivityState) : (session.transition next).state = session.state := by
  show (transitionActivity session.state next).1 = _
  unfold transitionActivity
  split
  · rfl
  · rcases h with h | h
    · rw [h]
      rfl
    · rw [h]
      rfl

theorem deliver_settled {session : ActivitySession} (h : session.Settled) (now : Int) :
    (session.deliver now).state = session.state :=
  transition_settled h .delivered

/-- A section that keeps settled states keeps those of all sessions. -/
theorem onSession_settled (change : ActivitySession → ActivitySession)
    (hchange : ∀ session, session.Settled → (change session).state = session.state)
    (s : ActivitySupervisor) (address a : Nat) (ha : (s.sessions a).Settled) :
    ((s.onSession address change).sessions a).state = (s.sessions a).state := by
  show (Function.update s.sessions address _ a).state = _
  by_cases h : a = address
  · subst h
    rw [Function.update_self]
    exact hchange _ ha
  · rw [Function.update_of_ne h]

/-- What `Take` does: nothing, or the first activity of that id leaves the
background. -/
theorem take_cases (s : ActivitySupervisor) (id : Int) (retain : Bool) (now : Int)
    (busy : Nat → Activity → Bool) :
    s.take id retain now busy = (s, none) ∨
      ∃ pre job post retained gone sessions, s.activities = pre ++ job :: post ∧
        (retained ++ gone).Perm (s.retained ++ s.gone ++ [job]) ∧
        (∀ a, (s.sessions a).Settled → (sessions a).state = (s.sessions a).state) ∧
        s.take id retain now busy =
          ({ s with
              activities := pre ++ post
              taken := s.taken ++ [job]
              retained := retained
              gone := gone
              sessions := sessions }, some job) := by
  unfold take
  split
  · exact Or.inl rfl
  rename_i pre job post hfirst
  have hcut := (List.firstMatch_eq_some.mp hfirst).1
  split
  · rename_i address _ _
    dsimp only
    split
    · exact Or.inl rfl
    rcases pruneRetained_spec busy (s.retained ++ [job]).length
      { s.onSession address (·.deliver now) with
        activities := pre ++ post
        retained := s.retained ++ [job]
        taken := s.taken ++ [job] } with ⟨kept, dropped, heq, hperm⟩
    refine Or.inr ⟨pre, job, post, kept, s.gone ++ dropped,
      (s.onSession address (·.deliver now)).sessions, hcut, ?_, ?_, Prod.ext heq rfl⟩
    · have hcount := fun a => hperm.count_eq a
      rw [List.perm_iff_count]
      intro a
      have := hcount a
      simp only [List.count_append] at this ⊢
      omega
    · exact onSession_settled (·.deliver now) (fun _ h => deliver_settled h now) s address
  · refine Or.inr ⟨pre, job, post, s.retained, s.gone ++ [job], s.sessions, hcut, ?_,
      fun _ _ => rfl, rfl⟩
    rw [List.append_assoc]

theorem take_settled (s : ActivitySupervisor) (id : Int) (retain : Bool) (now : Int)
    (busy : Nat → Activity → Bool) (a : Nat) (h : (s.sessions a).Settled) :
    ((s.take id retain now busy).1.sessions a).state = (s.sessions a).state := by
  rcases s.take_cases id retain now busy with
    heq | ⟨pre, job, post, retained, gone, sessions, -, -, hsettled, heq⟩
  · rw [heq]
  · rw [heq]
    exact hsettled a h

end Operations

/-! ### The books -/

/-- Where the activities are. -/
structure Books (s : ActivitySupervisor) : Prop where
  placed : (s.foreground ++ s.activities ++ s.retained ++ s.gone).Perm s.registered
  serials : ∀ a ∈ s.registered, a.serial < s.registered.length
  distinct : s.registered.Nodup
  kept : (s.activities ++ s.taken).Perm s.entered
  /-- what is in the foreground never came to the background -/
  once : (s.foreground ++ s.entered).Nodup
  known : ∀ a ∈ s.foreground ++ s.entered, a ∈ s.registered

/-- The ids that the supervisor issued and activities use. -/
def issuedIds (s : ActivitySupervisor) : List Int :=
  (s.registered.filter fun job => !job.detached).map (·.activityId)

/-- The ids issued are distinct. -/
structure Ids (s : ActivitySupervisor) : Prop where
  distinct : (s.outstanding ++ s.issuedIds).Nodup
  below : ∀ id ∈ s.outstanding ++ s.issuedIds, 0 < id ∧ id < s.nextId
  positive : 0 < s.nextId

structure Counts (limit : Int) (s : ActivitySupervisor) : Prop where
  reserved : s.reservations = s.outstanding.length
  bounded : s.reservations + s.live ≤ max limit 0

structure Inv (limit : Int) (s : ActivitySupervisor) : Prop where
  books : s.Books
  ids : s.Ids
  counts : s.Counts limit
  completed : s.completions.Sublist s.taken

variable {limit : Int} {s : ActivitySupervisor} {job : Activity}

/-- Sessions, candidates and the end of the supervisor are not in the books. -/
theorem Inv.frame (h : s.Inv limit) (sessions : Nat → ActivitySession)
    (candidates : List Activity) (stopping : Bool) :
    Inv limit { s with sessions := sessions, candidates := candidates, stopping := stopping } where
  books := ⟨h.books.placed, h.books.serials, h.books.distinct, h.books.kept, h.books.once,
    h.books.known⟩
  ids := ⟨h.ids.distinct, h.ids.below, h.ids.positive⟩
  counts := ⟨h.counts.reserved, h.counts.bounded⟩
  completed := h.completed

/-- A new registration is not an old one. -/
theorem Books.fresh (h : s.Books) (hserial : job.serial = s.registered.length) :
    job ∉ s.registered := fun hjob => absurd hserial (Nat.ne_of_lt (h.serials job hjob))

theorem Books.admitted (h : s.Books) (hserial : job.serial = s.registered.length) :
    (∀ a ∈ s.registered ++ [job], a.serial < (s.registered ++ [job]).length) ∧
      (s.registered ++ [job]).Nodup := by
  constructor
  · intro a ha
    rw [List.length_append, List.length_singleton]
    rcases List.mem_append.mp ha with ha | ha
    · exact Nat.lt_succ_of_lt (h.serials a ha)
    · rw [List.mem_singleton.mp ha, hserial]
      exact Nat.lt_succ_self _
  · exact List.nodup_append.mpr ⟨h.distinct, List.nodup_singleton _, fun a ha b hb hab =>
      h.fresh hserial (List.mem_singleton.mp hb ▸ hab ▸ ha)⟩

/-- A new activity waits in the foreground. -/
theorem Books.push_foreground (h : s.Books) (job : Activity) (hserial : job.serial = s.registered.length) :
    Books { s with
      registered := s.registered ++ [job]
      foreground := s.foreground ++ [job] } where
  placed := by
    rw [List.perm_iff_count]
    intro a
    have := h.placed.count_eq a
    simp only [List.count_append] at this ⊢
    omega
  serials := (h.admitted hserial).1
  distinct := (h.admitted hserial).2
  kept := h.kept
  once := by
    have hperm : (s.foreground ++ [job] ++ s.entered).Perm (job :: (s.foreground ++ s.entered)) := by
      rw [List.append_assoc]
      exact List.perm_middle
    exact hperm.nodup_iff.mpr
      (List.nodup_cons.mpr ⟨fun hj => h.fresh hserial (h.known job hj), h.once⟩)
  known := by
    intro a ha
    simp only [List.mem_append, List.mem_singleton] at ha ⊢
    rcases ha with (ha | ha) | ha
    · exact Or.inl (h.known a (List.mem_append_left _ ha))
    · exact Or.inr ha
    · exact Or.inl (h.known a (List.mem_append_right _ ha))

/-- A new activity runs in the background. -/
theorem Books.push_background (h : s.Books) (job : Activity) (hserial : job.serial = s.registered.length) :
    Books { s with
      registered := s.registered ++ [job]
      activities := s.activities ++ [job]
      entered := s.entered ++ [job] } where
  placed := by
    rw [List.perm_iff_count]
    intro a
    have := h.placed.count_eq a
    simp only [List.count_append] at this ⊢
    omega
  serials := (h.admitted hserial).1
  distinct := (h.admitted hserial).2
  kept := by
    rw [List.perm_iff_count]
    intro a
    have := h.kept.count_eq a
    simp only [List.count_append] at this ⊢
    omega
  once := by
    show (s.foreground ++ (s.entered ++ [job])).Nodup
    rw [← List.append_assoc]
    exact List.nodup_append.mpr ⟨h.once, List.nodup_singleton _, fun a ha b hb hab =>
      h.fresh hserial (h.known job (List.mem_singleton.mp hb ▸ hab ▸ ha))⟩
  known := by
    intro a ha
    simp only [List.mem_append, List.mem_singleton] at ha ⊢
    rcases ha with ha | ha | ha
    · exact Or.inl (h.known a (List.mem_append_left _ ha))
    · exact Or.inl (h.known a (List.mem_append_right _ ha))
    · exact Or.inr ha

/-- An activity goes from the foreground to the background. -/
theorem Books.move {pre post : List Activity} (h : s.Books)
    (hcut : s.foreground = pre ++ job :: post) :
    Books { s with
      foreground := pre ++ post
      activities := s.activities ++ [job]
      entered := s.entered ++ [job] } where
  placed := by
    rw [List.perm_iff_count]
    intro a
    have := h.placed.count_eq a
    rw [hcut] at this
    simp only [List.count_append, List.count_cons, List.count_nil] at this ⊢
    omega
  serials := h.serials
  distinct := h.distinct
  kept := by
    rw [List.perm_iff_count]
    intro a
    have := h.kept.count_eq a
    simp only [List.count_append] at this ⊢
    omega
  once := by
    have hperm : (pre ++ post ++ (s.entered ++ [job])).Perm (s.foreground ++ s.entered) := by
      rw [hcut, List.perm_iff_count]
      intro a
      simp only [List.count_append, List.count_cons, List.count_nil]
      omega
    exact hperm.nodup_iff.mpr h.once
  known := by
    intro a ha
    apply h.known
    rw [hcut]
    simp only [List.mem_append, List.mem_cons, List.not_mem_nil, or_false] at ha ⊢
    rcases ha with (ha | ha) | ha | ha
    · exact Or.inl (Or.inl ha)
    · exact Or.inl (Or.inr (Or.inr ha))
    · exact Or.inr ha
    · exact Or.inl (Or.inr (Or.inl ha))

/-- An activity leaves the foreground for good. -/
theorem Books.remove {pre post : List Activity} (h : s.Books)
    (hcut : s.foreground = pre ++ job :: post) :
    Books { s with foreground := pre ++ post, gone := s.gone ++ [job] } where
  placed := by
    rw [List.perm_iff_count]
    intro a
    have := h.placed.count_eq a
    rw [hcut] at this
    simp only [List.count_append, List.count_cons, List.count_nil] at this ⊢
    omega
  serials := h.serials
  distinct := h.distinct
  kept := h.kept
  once := by
    have hsub : (pre ++ post ++ s.entered).Sublist (s.foreground ++ s.entered) := by
      rw [hcut]
      exact ((List.sublist_cons_self job post).append_left pre).append_right s.entered
    exact hsub.nodup h.once
  known := by
    intro a ha
    apply h.known
    rw [hcut]
    simp only [List.mem_append, List.mem_cons] at ha ⊢
    rcases ha with (ha | ha) | ha
    · exact Or.inl (Or.inl ha)
    · exact Or.inl (Or.inr (Or.inr ha))
    · exact Or.inr ha

/-- An activity is taken from the background. -/
theorem Books.take {pre post retained gone : List Activity} {sessions : Nat → ActivitySession}
    (h : s.Books) (hcut : s.activities = pre ++ job :: post)
    (hperm : (retained ++ gone).Perm (s.retained ++ s.gone ++ [job])) :
    Books { s with
      activities := pre ++ post
      taken := s.taken ++ [job]
      retained := retained
      gone := gone
      sessions := sessions } where
  placed := by
    rw [List.perm_iff_count]
    intro a
    have := h.placed.count_eq a
    have hleft := hperm.count_eq a
    rw [hcut] at this
    simp only [List.count_append, List.count_cons, List.count_nil] at this hleft ⊢
    omega
  serials := h.serials
  distinct := h.distinct
  kept := by
    rw [List.perm_iff_count]
    intro a
    have := h.kept.count_eq a
    rw [hcut] at this
    simp only [List.count_append, List.count_cons, List.count_nil] at this ⊢
    omega
  once := h.once
  known := h.known

/-! ### Ids -/

theorem issuedIds_append (s : ActivitySupervisor) (job : Activity) :
    issuedIds { s with registered := s.registered ++ [job] } =
      s.issuedIds ++ if job.detached then [] else [job.activityId] := by
  unfold issuedIds
  rw [List.filter_append, List.map_append]
  cases hd : job.detached <;> simp [hd]

/-- The next id is issued to a reservation. -/
theorem Ids.reserve (h : s.Ids) :
    Ids { s with
      reservations := s.reservations + 1
      nextId := s.nextId + 1
      outstanding := s.outstanding ++ [s.nextId] } where
  distinct := by
    have hperm : (s.outstanding ++ [s.nextId] ++ s.issuedIds).Perm
        (s.nextId :: (s.outstanding ++ s.issuedIds)) := by
      rw [List.append_assoc]
      exact List.perm_middle
    refine hperm.nodup_iff.mpr (List.nodup_cons.mpr ⟨fun hmem => ?_, h.distinct⟩)
    exact lt_irrefl _ (h.below _ hmem).2
  below := by
    intro id hid
    have : 0 < id ∧ id < s.nextId ∨ id = s.nextId := by
      rcases List.mem_append.mp hid with hid | hid
      · rcases List.mem_append.mp hid with hid | hid
        · exact Or.inl (h.below id (List.mem_append_left _ hid))
        · exact Or.inr (List.mem_singleton.mp hid)
      · exact Or.inl (h.below id (List.mem_append_right _ hid))
    have := h.positive
    show 0 < id ∧ id < s.nextId + 1
    omega
  positive := by
    have := h.positive
    show 0 < s.nextId + 1
    omega

/-- A reservation gives its id up. -/
theorem Ids.release (h : s.Ids) (reservation reservations : Int) :
    Ids { s with
      outstanding := s.outstanding.erase reservation
      reservations := reservations } where
  distinct := ((List.erase_sublist.append_right s.issuedIds).nodup h.distinct)
  below := fun id hid => h.below id
    ((List.erase_sublist.append_right s.issuedIds).subset hid)
  positive := h.positive

/-- An activity takes its reservation's id. -/
theorem Ids.named (h : s.Ids) (job : Activity) {reservation : Int} (hr : reservation ∈ s.outstanding)
    (hid : job.activityId = reservation) :
    Ids { s with
      outstanding := s.outstanding.erase reservation
      registered := s.registered ++ [job] } := by
  have hperm : (s.outstanding.erase reservation ++ (s.issuedIds ++ [reservation])).Perm
      (s.outstanding ++ s.issuedIds) := by
    rw [List.perm_iff_count]
    intro a
    have := (List.perm_cons_erase hr).count_eq a
    simp only [List.count_append, List.count_cons, List.count_nil] at this ⊢
    omega
  have hsub : (issuedIds { s with registered := s.registered ++ [job] }).Sublist
      (s.issuedIds ++ [reservation]) := by
    rw [issuedIds_append, hid]
    cases job.detached with
    | true => simp
    | false => exact List.Sublist.refl _
  have hall := hsub.append_left (s.outstanding.erase reservation)
  exact ⟨hall.nodup (hperm.nodup_iff.mpr h.distinct),
    fun id hmem => h.below id (hperm.subset (hall.subset hmem)), h.positive⟩

/-- An activity without an id gets the next one, unless it is detached. -/
theorem Ids.unnamed (h : s.Ids) (hid : job.detached = false → job.activityId = s.nextId) :
    Ids { s with
      nextId := if job.detached = false then s.nextId + 1 else s.nextId
      registered := s.registered ++ [job] } := by
  have hissued := issuedIds_append s job
  cases hd : job.detached with
  | true =>
    rw [hd, if_pos rfl, List.append_nil] at hissued
    rw [if_neg (by decide)]
    exact ⟨hissued ▸ h.distinct, fun id hmem => h.below id (hissued ▸ hmem), h.positive⟩
  | false =>
    rw [hd, if_neg (by decide), hid hd] at hissued
    rw [if_pos rfl]
    have := h.positive
    refine ⟨?_, ?_, ?_⟩
    · show (s.outstanding ++ issuedIds { s with registered := s.registered ++ [job] }).Nodup
      rw [hissued, ← List.append_assoc]
      refine List.nodup_append.mpr ⟨h.distinct, List.nodup_singleton _, fun a ha b hb hab => ?_⟩
      rw [List.mem_singleton.mp hb] at hab
      exact absurd (h.below a ha).2 (by omega)
    · intro id hmem
      have hmem : id ∈ s.outstanding ++ issuedIds { s with registered := s.registered ++ [job] } :=
        hmem
      rw [hissued, ← List.append_assoc] at hmem
      show 0 < id ∧ id < s.nextId + 1
      rcases List.mem_append.mp hmem with hmem | hmem
      · have := h.below id hmem
        omega
      · have := List.mem_singleton.mp hmem
        omega
    · show 0 < s.nextId + 1
      omega

/-! ### Steps keep the books -/

theorem reserve_inv (h : s.Inv limit) : (s.reserveActivity limit).Inv limit := by
  unfold reserveActivity
  split
  · exact h
  rename_i hfull
  refine ⟨⟨h.books.placed, h.books.serials, h.books.distinct, h.books.kept, h.books.once,
    h.books.known⟩, h.ids.reserve, ⟨?_, ?_⟩, h.completed⟩
  · show s.reservations + 1 = ((s.outstanding ++ [s.nextId]).length : Int)
    rw [List.length_append, List.length_singleton, h.counts.reserved]
    rfl
  · show s.reservations + 1 + s.live ≤ max limit 0
    have := le_max_left limit 0
    omega

theorem release_inv (h : s.Inv limit) (reservation : Int) :
    (s.release reservation).Inv limit := by
  unfold release
  split
  · rename_i hr
    have hlen : (s.outstanding.erase reservation).length + 1 = s.outstanding.length := by
      rw [List.length_erase_of_mem hr]
      have := List.length_pos_of_mem hr
      omega
    have hreserved := h.counts.reserved
    have hbounded := h.counts.bounded
    rw [if_pos (by omega)]
    refine ⟨⟨h.books.placed, h.books.serials, h.books.distinct, h.books.kept, h.books.once,
      h.books.known⟩, h.ids.release reservation _, ⟨?_, ?_⟩, h.completed⟩
    · show s.reservations - 1 = ((s.outstanding.erase reservation).length : Int)
      omega
    · show s.reservations - 1 + s.live ≤ max limit 0
      omega
  · exact h

/-- An activity that carries an id keeps it. -/
theorem assignId_named (s : ActivitySupervisor) (job : Activity) (hid : 0 < job.id) :
    s.assignId job = ({ job with serial := s.registered.length },
      { s with registered := s.registered ++ [{ job with serial := s.registered.length }] }) := by
  have hno : ¬ job.id ≤ 0 := not_le.mpr hid
  simp only [assignId, hno, false_and, if_false]

/-- One that carries none gets the next, or its pid when it is detached. -/
theorem assignId_unnamed (s : ActivitySupervisor) (job : Activity) (hid : job.id ≤ 0) :
    ∃ new : Activity, new.serial = s.registered.length ∧ new.detached = job.detached ∧
      (0 < s.nextId → new.detached = false → new.activityId = s.nextId) ∧
      s.assignId job = (new,
        { s with
          nextId := if new.detached = false then s.nextId + 1 else s.nextId
          registered := s.registered ++ [new] }) := by
  refine ⟨{ job with
    id := if job.detached then job.pid else s.nextId, serial := s.registered.length }, rfl, rfl,
      fun hnext hd => ?_, ?_⟩
  · have hd : job.detached = false := hd
    simp only [Activity.activityId, hd, if_neg Bool.false_ne_true, if_pos hnext]
  · simp only [assignId, hid, true_and, if_true]
    rfl

theorem register_inv (h : s.Inv limit) (reservation : Int) (named : Bool) (job : Activity) :
    (s.register reservation named job).Inv limit := by
  unfold register
  split
  · rename_i hr
    have hlen : (s.outstanding.erase reservation).length + 1 = s.outstanding.length := by
      rw [List.length_erase_of_mem hr]
      have := List.length_pos_of_mem hr
      omega
    have hreserved := h.counts.reserved
    have hbounded := h.counts.bounded
    have hlive : s.live = s.foreground.length + s.activities.countP fun job => !job.detached := rfl
    have hpositive := (h.ids.below reservation (List.mem_append_left _ hr)).1
    dsimp only
    rw [if_neg (by omega)]
    split
    · -- the supervisor stops: the reservation is spent for nothing
      refine ⟨⟨h.books.placed, h.books.serials, h.books.distinct, h.books.kept, h.books.once,
        h.books.known⟩, h.ids.release reservation _, ⟨?_, ?_⟩, h.completed⟩
      · show s.reservations - 1 = ((s.outstanding.erase reservation).length : Int)
        omega
      · show s.reservations - 1 + s.live ≤ max limit 0
        omega
    · cases named with
      | true =>
        rw [assignId_named _ _ (by rw [if_pos rfl]; exact hpositive), if_pos rfl]
        have hbooks := h.books.push_foreground
          { job with id := reservation, serial := s.registered.length } rfl
        have hids := h.ids.named { job with id := reservation, serial := s.registered.length } hr
          (if_pos hpositive)
        refine ⟨⟨hbooks.placed, hbooks.serials, hbooks.distinct, hbooks.kept, hbooks.once,
          hbooks.known⟩, ⟨hids.distinct, hids.below, hids.positive⟩, ⟨?_, ?_⟩, h.completed⟩
        · show s.reservations - 1 = ((s.outstanding.erase reservation).length : Int)
          omega
        · show s.reservations - 1 + (((s.foreground ++ [_]).length +
            s.activities.countP fun job => !job.detached : Nat) : Int) ≤ max limit 0
          rw [List.length_append, List.length_singleton]
          omega
      | false =>
        rcases assignId_unnamed
          { s with
            outstanding := s.outstanding.erase reservation
            reservations := s.reservations - 1 }
          { job with id := if false = true then reservation else 0 }
          (by rw [if_neg Bool.false_ne_true]) with ⟨new, hserial, -, hid, heq⟩
        rw [heq]
        have hbooks := h.books.push_foreground new hserial
        have hrelease := h.ids.release reservation (s.reservations - 1)
        have hids := hrelease.unnamed (hid hrelease.positive)
        refine ⟨⟨hbooks.placed, hbooks.serials, hbooks.distinct, hbooks.kept, hbooks.once,
          hbooks.known⟩, ⟨hids.distinct, hids.below, hids.positive⟩, ⟨?_, ?_⟩, h.completed⟩
        · show s.reservations - 1 = ((s.outstanding.erase reservation).length : Int)
          omega
        · show s.reservations - 1 + (((s.foreground ++ [_]).length +
            s.activities.countP fun job => !job.detached : Nat) : Int) ≤ max limit 0
          rw [List.length_append, List.length_singleton]
          omega
  · exact h

theorem tryAdd_inv (h : s.Inv limit) (job : Activity) : (s.tryAdd limit job).Inv limit := by
  unfold tryAdd
  split
  · exact h
  rename_i hfull
  rcases assignId_unnamed s { job with id := 0 } (le_refl 0) with
    ⟨new, hserial, hdetached, hid, heq⟩
  have hdetached : new.detached = job.detached := hdetached
  rw [heq]
  have hbooks := h.books.push_background new hserial
  have hids := h.ids.unnamed (hid h.ids.positive)
  refine ⟨⟨hbooks.placed, hbooks.serials, hbooks.distinct, hbooks.kept, hbooks.once,
    hbooks.known⟩, ⟨hids.distinct, hids.below, hids.positive⟩, ⟨h.counts.reserved, ?_⟩,
    h.completed⟩
  have hbounded := h.counts.bounded
  have hlive : s.live = s.foreground.length + s.activities.countP fun job => !job.detached := rfl
  have hmax := le_max_left limit 0
  show s.reservations + ((s.foreground.length +
    (s.activities ++ [new]).countP fun job => !job.detached : Nat) : Int) ≤ max limit 0
  rw [List.countP_append, List.countP_singleton, hdetached]
  cases hd : job.detached with
  | true =>
    rw [if_neg (by decide)]
    omega
  | false =>
    -- an attached activity counts, and there was room for it
    rw [full, hd, if_neg Bool.false_ne_true, decide_eq_true_eq] at hfull
    rw [if_pos (by decide)]
    omega

theorem removeForeground_inv (h : s.Inv limit) (pid : Int) :
    (s.removeForeground pid).Inv limit := by
  unfold removeForeground
  split
  · rename_i pre job post hfirst
    have hcut := (List.firstMatch_eq_some.mp hfirst).1
    have hbounded := h.counts.bounded
    have hlive : s.live = s.foreground.length + s.activities.countP fun job => !job.detached := rfl
    rw [hcut, List.length_append, List.length_cons] at hlive
    refine ⟨h.books.remove hcut, ⟨h.ids.distinct, h.ids.below, h.ids.positive⟩,
      ⟨h.counts.reserved, ?_⟩, h.completed⟩
    show s.reservations + (((pre ++ post).length +
      s.activities.countP fun job => !job.detached : Nat) : Int) ≤ max limit 0
    rw [List.length_append]
    omega
  · exact h

theorem moveForegroundToBackground_inv (h : s.Inv limit) (pid : Int) :
    (s.moveForegroundToBackground pid).Inv limit := by
  unfold moveForegroundToBackground
  split
  · rename_i pre job post hfirst
    have hcut := (List.firstMatch_eq_some.mp hfirst).1
    have hbounded := h.counts.bounded
    have hlive : s.live = s.foreground.length + s.activities.countP fun job => !job.detached := rfl
    rw [hcut, List.length_append, List.length_cons] at hlive
    refine ⟨h.books.move hcut, ⟨h.ids.distinct, h.ids.below, h.ids.positive⟩,
      ⟨h.counts.reserved, ?_⟩, h.completed⟩
    show s.reservations + (((pre ++ post).length +
      (s.activities ++ [job]).countP fun job => !job.detached : Nat) : Int) ≤ max limit 0
    rw [List.length_append, List.countP_append, List.countP_singleton]
    split <;> omega
  · exact h

/-- A `Take` keeps the books, and records at most what it returns. -/
theorem take_inv (h : s.Inv limit) (id : Int) (retain : Bool) (now : Int)
    (busy : Nat → Activity → Bool) :
    (s.take id retain now busy).1.Inv limit ∧
      (s.take id retain now busy).1.completions = s.completions ∧
      (s.take id retain now busy).1.taken =
        s.taken ++ (s.take id retain now busy).2.toList := by
  rcases s.take_cases id retain now busy with
    heq | ⟨pre, job, post, retained, gone, sessions, hcut, hperm, -, heq⟩
  · rw [heq]
    exact ⟨h, rfl, (List.append_nil _).symm⟩
  rw [heq]
  have hbounded := h.counts.bounded
  have hlive : s.live = s.foreground.length + s.activities.countP fun job => !job.detached := rfl
  rw [hcut, List.countP_append, List.countP_cons] at hlive
  refine ⟨⟨h.books.take hcut hperm, ⟨h.ids.distinct, h.ids.below, h.ids.positive⟩,
    ⟨h.counts.reserved, ?_⟩, h.completed.trans (List.sublist_append_left _ _)⟩, rfl, rfl⟩
  show s.reservations + ((s.foreground.length +
    (pre ++ post).countP fun job => !job.detached : Nat) : Int) ≤ max limit 0
  rw [List.countP_append]
  omega

theorem takeCompleted_inv (h : s.Inv limit) (job : Activity) (now : Int)
    (busy : Nat → Activity → Bool) : (s.takeCompleted job now busy).Inv limit := by
  unfold takeCompleted
  split
  · have hlook : Inv limit { s with candidates := s.candidates.erase job } :=
      h.frame s.sessions _ s.stopping
    rcases take_inv hlook job.activityId true now busy with ⟨ht, hcompletions, htaken⟩
    dsimp only
    generalize take _ job.activityId true now busy = result at ht hcompletions htaken
    rcases result with ⟨t, - | taken⟩
    · exact ht
    · refine ⟨⟨ht.books.placed, ht.books.serials, ht.books.distinct, ht.books.kept, ht.books.once,
        ht.books.known⟩, ⟨ht.ids.distinct, ht.ids.below, ht.ids.positive⟩,
        ⟨ht.counts.reserved, ht.counts.bounded⟩, ?_⟩
      show (t.completions ++ [taken]).Sublist t.taken
      rw [show t.completions = s.completions from hcompletions,
        show t.taken = s.taken ++ [taken] from htaken]
      exact h.completed.append (List.Sublist.refl _)
  · exact h

/-- One step keeps the invariant. -/
theorem step_inv (h : s.Inv limit) (e : ActivityStep) : (s.step limit e).Inv limit := by
  cases e with
  | reserve => exact reserve_inv h
  | release reservation => exact release_inv h reservation
  | register reservation named job => exact register_inv h reservation named job
  | tryAdd job => exact tryAdd_inv h job
  | removeForeground pid => exact removeForeground_inv h pid
  | moveForegroundToBackground pid => exact moveForegroundToBackground_inv h pid
  | take id retain now busy => exact (take_inv h id retain now busy).1
  | look job ended =>
    show (s.look job ended).Inv limit
    unfold look
    split
    · exact h.frame s.sessions _ s.stopping
    · exact h
  | takeCompleted job now busy => exact takeCompleted_inv h job now busy
  | registerIo address | output address | outputEof address | reaped address
  | settle address graceOver | requestStop address | stop address | use address now =>
    exact h.frame _ s.candidates s.stopping
  | stopping => exact h.frame s.sessions s.candidates true

theorem start_inv (limit : Int) : ({} : ActivitySupervisor).Inv limit where
  books := ⟨List.Perm.refl _, nofun, List.nodup_nil, List.Perm.refl _, List.nodup_nil, nofun⟩
  ids := ⟨List.nodup_nil, nofun, by decide⟩
  counts := ⟨rfl, le_max_right limit 0⟩
  completed := List.Sublist.refl _

theorem Inv.accounted (h : s.Inv limit) : s.Accounted limit := by
  have hentered : s.entered.Nodup := (List.nodup_append.mp h.books.once).2.1
  have htaken : s.taken.Nodup :=
    (List.nodup_append.mp (h.books.kept.nodup_iff.mpr hentered)).2.1
  refine ⟨⟨h.books.placed, h.books.distinct⟩, ⟨h.books.kept, hentered⟩, ?_,
    ⟨h.completed.nodup htaken, fun job hjob => h.completed.subset hjob⟩, h.counts.reserved, ?_⟩
  · -- the activities that the supervisor gave an id are told apart by it
    have hissued := (List.nodup_append.mp h.ids.distinct).2.1
    refine List.Nodup.map_on ?_ (htaken.filter _)
    intro a ha b hb hab
    have hregistered : ∀ c ∈ s.taken.filter fun job => !job.detached,
        c ∈ s.registered.filter fun job => !job.detached := by
      intro c hc
      rcases List.mem_filter.mp hc with ⟨hc, hd⟩
      exact List.mem_filter.mpr ⟨h.books.known c (List.mem_append_right _
        (h.books.kept.subset (List.mem_append_right _ hc))), hd⟩
    exact List.inj_on_of_nodup_map hissued (hregistered a ha) (hregistered b hb) hab
  · have hlive : s.live = s.foreground.length + s.activities.countP fun job => !job.detached := rfl
    have hbounded := h.counts.bounded
    omega

/-! ### Settled sessions -/

/-- Every locked section of a session keeps a settled state. -/
theorem step_settled (s : ActivitySupervisor) (e : ActivityStep) (a : Nat)
    (h : (s.sessions a).Settled) :
    ((s.step limit e).sessions a).state = (s.sessions a).state := by
  cases e with
  | reserve =>
    show ((s.reserveActivity limit).sessions a).state = _
    unfold reserveActivity
    split <;> rfl
  | release reservation =>
    show ((s.release reservation).sessions a).state = _
    unfold release
    split <;> rfl
  | register reservation named job =>
    show ((s.register reservation named job).sessions a).state = _
    unfold register
    split
    · dsimp only
      split
      · rfl
      · split <;> rfl
    · rfl
  | tryAdd job =>
    show ((s.tryAdd limit job).sessions a).state = _
    unfold tryAdd
    split <;> rfl
  | removeForeground pid =>
    show ((s.removeForeground pid).sessions a).state = _
    unfold removeForeground
    split <;> rfl
  | moveForegroundToBackground pid =>
    show ((s.moveForegroundToBackground pid).sessions a).state = _
    unfold moveForegroundToBackground
    split <;> rfl
  | take id retain now busy => exact take_settled s id retain now busy a h
  | look job ended =>
    show ((s.look job ended).sessions a).state = _
    unfold look
    split <;> rfl
  | takeCompleted job now busy =>
    show ((s.takeCompleted job now busy).sessions a).state = _
    unfold takeCompleted
    split
    · have ht := take_settled { s with candidates := s.candidates.erase job } job.activityId true
        now busy a h
      dsimp only
      generalize take _ job.activityId true now busy = result at ht
      rcases result with ⟨t, - | taken⟩
      · exact ht
      · exact ht
    · rfl
  | registerIo address =>
    exact onSession_settled (·.transition .running) (fun _ h => transition_settled h .running)
      s address a h
  | output address =>
    refine onSession_settled (·.output) (fun session hs => ?_) s address a h
    show (if _ then _ else session : ActivitySession).state = _
    split
    · exact transition_settled hs .running
    · rfl
  | outputEof address =>
    exact onSession_settled (fun session => { session with outputEof := true }) (fun _ _ => rfl)
      s address a h
  | reaped address =>
    refine onSession_settled (·.reaped) (fun session hs => ?_) s address a h
    show (if _ then session else _ : ActivitySession).state = _
    split
    · rfl
    · have hwaited : ({ session with waitStatus := true } : ActivitySession).Settled := hs
      exact transition_settled hwaited .exited
  | settle address graceOver =>
    refine onSession_settled (·.settle graceOver) (fun session hs => ?_) s address a h
    show (if _ then _ else session : ActivitySession).state = _
    split
    · exact transition_settled hs _
    · rfl
  | requestStop address =>
    refine onSession_settled (·.requestStop) (fun session _ => ?_) s address a h
    show (if _ then session else _ : ActivitySession).state = _
    split <;> rfl
  | stop address =>
    exact onSession_settled (·.transition .stopped) (fun _ h => transition_settled h .stopped)
      s address a h
  | use address now =>
    exact onSession_settled (fun session => { session with lastUsed := now }) (fun _ _ => rfl)
      s address a h
  | stopping => rfl

/-- **Accounting of activities.**  In every order of steps each activity
registered is in one list until it leaves, what came to the background is
there or was taken once, reservations are counted, and all that is attached
keeps within the limit; and no session leaves a settled state. -/
theorem activities_accounted (h : Run (step limit) (fun _ _ => True) {} s) :
    s.Accounted limit ∧
      ∀ t, Run (step limit) (fun _ _ => True) s t → ∀ a, (s.sessions a).Settled →
        (t.sessions a).state = (s.sessions a).state := by
  refine ⟨?_, fun t ht a ha => ?_⟩
  · have hinv : s.Inv limit := h.invariant (start_inv limit) fun _ e hs _ => step_inv hs e
    exact hinv.accounted
  · refine ht.invariant (I := fun t => (t.sessions a).state = (s.sessions a).state) rfl ?_
    intro u e hu _
    have hsettled : (u.sessions a).Settled := by
      unfold ActivitySession.Settled
      rw [hu]
      exact ha
    exact (step_settled u e a hsettled).trans hu

/-- No interaction lock is held. -/
def free : Nat → Activity → Bool := fun _ _ => false

/-- A command that goes to the background, ends, and is taken by a drain. -/
def commandRun : List ActivityStep :=
  [.reserve, .register (2 ^ 30) true { pid := 40, session := some 0 }, .registerIo 0,
    .moveForegroundToBackground 40, .reaped 0, .outputEof 0, .settle 0 false,
    .look { pid := 40, id := 2 ^ 30, session := some 0 } false,
    .takeCompleted { pid := 40, id := 2 ^ 30, session := some 0 } 5 free,
    .take (2 ^ 30) true 6 free]

theorem activities_accounted_command :
    (commandRun.foldl (step 4) {}).completions.map (·.pid) = [40] ∧
      (commandRun.foldl (step 4) {}).Accounted 4 :=
  ⟨by decide, (activities_accounted (Run.of_allOk
    (Run.allOk_of_forall (fun _ _ _ => trivial) _))).1⟩

/-- Two detached commands, one after the other, with the same pid. -/
def samePid : List ActivityStep :=
  [.tryAdd { pid := 7, kind := .detached }, .take 7 true 1 free,
    .tryAdd { pid := 7, kind := .detached }, .take 7 true 2 free]

/-- A detached activity is known by its pid, which comes again. -/
theorem detached_taken_again :
    ¬ ∀ (limit : Int) (s : ActivitySupervisor), Run (step limit) (fun _ _ => True) {} s →
      (s.taken.map (·.activityId)).Nodup := by
  intro h
  have hrun := h 8 (samePid.foldl (step 8) {})
    (Run.of_allOk (Run.allOk_of_forall (fun _ _ _ => trivial) _))
  exact absurd hrun (by decide)

end ActivitySupervisor

end UAgent
