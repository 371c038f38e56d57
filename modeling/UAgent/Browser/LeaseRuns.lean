/-
UAgent/Browser/LeaseRuns.lean

Every run of the broker keeps its leases (`brokered_of_run`): one lemma for each
section of `Execute`, one for a step, and the run by induction.

Main results: `run_exclusive`, that a session has one browser and that what it
asks is run while it has it, and `run_isolated`, that a research browser has
never run the commands of two leases.
-/
import UAgent.Browser.Leases

namespace UAgent

open Bytes

namespace BrokerState

variable {s s' : BrokerState} {command result snapshot : Json} {slot i : SlotId} {call : Nat}
  {c : BrokerCall} {phase : BrokerPhase}

theorem calls_goTo (s : BrokerState) (call : Nat) (command : Json) (phase : BrokerPhase) (t : Nat) :
    (s.goTo call command phase).calls t = if t = call then some ⟨command, phase⟩ else s.calls t :=
  Function.update_apply _ _ _ _

theorem calls_reply (s : BrokerState) (call : Nat) (result : Json) (t : Nat) :
    (s.reply call result).calls t = if t = call then none else s.calls t :=
  Function.update_apply _ _ _ _

/-! ### A call moves on -/

/-- What a call does to its slot, or to a slot whose lock nobody has. -/
structure AtSlot (s s' : BrokerState) (slot : SlotId) (call : Nat) : Prop where
  calls : s'.calls = s.calls
  lock : ∀ t, s.holder slot = some t → t = call
  other : ∀ j, j ≠ slot → s'.slots j = s.slots j ∧ s'.holder j = s.holder j
  leases : s'.leases = s.leases
  orderly : Orderly s'
  asked : ∀ ask ∈ (s'.slots slot).runtime.asked, Faithful s' slot ask

theorem AtSlot.refl (h : Brokered s) (lock : ∀ t, s.holder slot = some t → t = call) :
    AtSlot s s slot call :=
  ⟨rfl, lock, fun _ _ => ⟨rfl, rfl⟩, rfl, h.orderly, h.faithful slot⟩

theorem AtSlot.leases_subset (h : AtSlot s s' slot call) : s.leases ⊆ s'.leases := by
  rw [h.leases]
  exact List.Subset.refl _

/-- A slot is changed. -/
theorem AtSlot.of_slot (h : Brokered s) (lock : ∀ t, s.holder slot = some t → t = call)
    (value : BrokerSlot) (hlapsed : Lapsed (s.slots slot) value)
    (hasked : ∀ ask ∈ value.runtime.asked, Faithful (s.setSlot slot value) slot ask) :
    AtSlot s (s.setSlot slot value) slot call where
  calls := rfl
  lock := lock
  other j hj := ⟨(slots_setSlot s slot j value).trans (if_neg hj), rfl⟩
  leases := rfl
  orderly := h.orderly.of_lapsed rfl (List.Sublist.refl _) (forall_setSlot Lapsed.refl hlapsed)
  asked := by
    rw [slots_setSlot, if_pos rfl]
    exact hasked

/-- Its lock is taken or given back. -/
theorem AtSlot.of_holder (h : AtSlot s s' slot call) (holder : Option Nat) :
    AtSlot s { s' with holder := Function.update s'.holder slot holder } slot call where
  calls := h.calls
  lock := h.lock
  other j hj := ⟨(h.other j hj).1, (Function.update_of_ne hj _ _).trans (h.other j hj).2⟩
  leases := h.leases
  orderly := h.orderly.of_lapsed rfl (List.Sublist.refl _) fun _ => .refl _
  asked ask hask := (h.asked ask hask).congr (List.Subset.refl _) rfl

/-- The call goes on to a phase whose facts hold. -/
theorem Brokered.goTo (h : Brokered s) (hat : AtSlot s s' slot call)
    (hphase : PhaseOk s' call command phase) : Brokered (s'.goTo call command phase) := by
  refine h.at_slot slot ?_ hat.leases_subset hat.other ?_ ?_
  · exact hat.orderly.of_lapsed rfl (List.Sublist.refl _) fun _ => .refl _
  · intro t c hc
    rw [calls_goTo] at hc
    split_ifs at hc with ht
    · cases hc
      rw [ht]
      exact .inr (hphase.congr fun _ _ => ⟨rfl, rfl, rfl, rfl, rfl⟩)
    · exact .inl ⟨hat.calls ▸ hc, fun hlock => ht (hat.lock t hlock)⟩
  · exact fun ask hask => (hat.asked ask hask).congr (List.Subset.refl _) rfl

/-- The call ends. -/
theorem Brokered.reply (h : Brokered s) (hat : AtSlot s s' slot call) (result : Json) :
    Brokered (s'.reply call result) := by
  refine h.at_slot slot ?_ hat.leases_subset hat.other ?_ ?_
  · exact hat.orderly.of_lapsed rfl (List.Sublist.refl _) fun _ => .refl _
  · intro t c hc
    rw [calls_reply] at hc
    split_ifs at hc with ht
    exact .inl ⟨hat.calls ▸ hc, fun hlock => ht (hat.lock t hlock)⟩
  · exact fun ask hask => (hat.asked ask hask).congr (List.Subset.refl _) rfl

/-- What a browser was asked before stays as it was. -/
theorem faithful_ask (h : Brokered s) {value : BrokerSlot} {asks : List BrowserAsk}
    (hvalue : value.runtime = (s.slots slot).runtime.ask asks)
    (hruntime : value.runtimeToken = (s.slots slot).runtimeToken)
    (hnew : ∀ ask ∈ asks, Faithful s slot ask) :
    ∀ ask ∈ value.runtime.asked, Faithful (s.setSlot slot value) slot ask := by
  intro ask hask
  rw [hvalue] at hask
  have hfaithful : Faithful s slot ask :=
    (List.mem_append.mp hask).elim (h.faithful slot ask) (hnew ask)
  refine hfaithful.congr (List.Subset.refl _) ?_
  rw [slots_setSlot, if_pos rfl, hruntime]

/-- So it does when it is asked nothing. -/
theorem faithful_kept (h : Brokered s) {value : BrokerSlot}
    (hvalue : value.runtime = (s.slots slot).runtime)
    (hruntime : value.runtimeToken = (s.slots slot).runtimeToken) :
    ∀ ask ∈ value.runtime.asked, Faithful (s.setSlot slot value) slot ask := by
  intro ask hask
  rw [hvalue] at hask
  refine (h.faithful slot ask hask).congr (List.Subset.refl _) ?_
  rw [slots_setSlot, if_pos rfl, hruntime]

theorem Held.lock_eq (h : Held s slot call command) (t : Nat) (ht : s.holder slot = some t) :
    t = call := Option.some_inj.mp (ht.symm.trans h.holder)

/-- A slot that is changed is still held when its lease is the same. -/
theorem Held.setSlot (h : Held s slot call command) {value : BrokerSlot} (hbusy : value.busy = true)
    (howner : value.owner = (s.slots slot).owner) (htoken : value.token = (s.slots slot).token) :
    Held (s.setSlot slot value) slot call command where
  holder := h.holder
  busy := by rw [slots_setSlot, if_pos rfl, hbusy]
  lease := by
    rw [slots_setSlot, if_pos rfl, leaseChanged, howner, htoken]
    exact h.lease

/-! ### The sections of `Execute` -/

/-- The lock of a slot is taken. -/
theorem brokered_grant (h : Brokered s) (hfree : s.holder slot = none) (call : Nat)
    (command : Json) : Brokered (s.grant slot call command) := by
  have hlock : ∀ t, s.holder slot = some t → t = call := fun t ht => by
    rw [hfree] at ht
    cases ht
  unfold grant
  by_cases hstop : s.stopping = true
  · rw [if_pos hstop]
    exact h.reply (.refl h hlock) _
  rw [if_neg hstop]
  by_cases hlease : leaseChanged (s.slots slot) command = true
  · rw [if_pos hlease]
    exact h.reply (.refl h hlock) _
  rw [if_neg hlease]
  have hat := AtSlot.of_slot h hlock { s.slots slot with busy := true, previous := [] }
    (.inr ⟨rfl, rfl⟩) (faithful_kept h rfl rfl)
  have hslot := slots_setSlot s slot slot { s.slots slot with busy := true, previous := [] }
  rw [if_pos rfl] at hslot
  have hheld : Held ((s.setSlot slot { s.slots slot with busy := true, previous := [] }).lock slot
      call) slot call command := by
    refine ⟨Function.update_self _ _ _, ?_, ?_⟩
    · show ((s.setSlot slot _).slots slot).busy = true
      rw [hslot]
    · show leaseChanged ((s.setSlot slot _).slots slot) command = false
      rw [hslot]
      exact Bool.eq_false_iff.mpr hlease
  refine h.goTo (hat.of_holder (some call)) ⟨hheld, ?_⟩
  show ((s.setSlot slot _).slots slot).token = (s.slots slot).token
  rw [hslot]

/-- The browser of a research slot becomes the one of the lease. -/
theorem brokered_renew (h : Brokered s) {token previous : Bytes} {incarnation : Nat}
    (hphase : PhaseOk s call command (.granted slot token incarnation previous)) (removed : Bool) :
    Brokered (s.renew slot call command token incarnation previous removed) := by
  obtain ⟨hheld, htoken⟩ := hphase
  unfold renew
  split_ifs with hfresh hremoved
  · refine h.goTo (.refl h hheld.lock_eq) ⟨hheld, fun hne => ?_⟩
    simp only [stale, Bool.and_eq_false_iff, decide_eq_false_iff_not, not_not] at hfresh
    rw [htoken, hfresh.resolve_left hne]
  · -- the new browser was asked nothing
    have hat := AtSlot.of_slot h hheld.lock_eq
      { s.slots slot with runtime := { incarnation }, runtimeToken := token } (.inr ⟨rfl, rfl⟩)
      fun ask hask => by cases hask
    refine h.goTo hat ?_
    refine ⟨hheld.setSlot hheld.busy rfl rfl, fun _ => ?_⟩
    show ((s.setSlot slot _).slots slot).token = ((s.setSlot slot _).slots slot).runtimeToken
    rw [slots_setSlot, if_pos rfl]
    exact htoken
  · have hshut : ∀ ask ∈ [BrowserAsk.shutdown], Faithful s slot ask := fun ask hask => by
      rw [List.mem_singleton.mp hask]
      trivial
    have hat := AtSlot.of_slot h hheld.lock_eq
      { s.slots slot with runtime := (s.slots slot).runtime.ask [.shutdown], busy := false }
      (.inr ⟨rfl, rfl⟩) (faithful_ask h rfl rfl hshut)
    exact h.reply (hat.of_holder none) _

/-- A command that has its lease says so, unless it is a bare release. -/
theorem lease_of_held (h : Held s slot call command) (hne : sessionOf command ≠ []) :
    (s.slots slot).owner = sessionOf command ∧
      (opOf command ≠ lit "release" ∨ command.contains (lit "lease") = true →
        leaseOf command = (s.slots slot).token) := by
  have hlease := h.lease
  simp only [leaseChanged, Bool.and_eq_false_iff, Bool.or_eq_false_iff, decide_eq_false_iff_not,
    not_not] at hlease
  obtain ⟨howner, hnamed⟩ := hlease.resolve_left hne
  refine ⟨howner, fun hnames => hnamed.resolve_left fun hbare => ?_⟩
  rcases hnames with hop | hcontains
  · exact hop hbare.1
  · exact absurd hcontains (Bool.not_eq_true _ ▸ hbare.2)

/-- The command is run under the lease. -/
theorem brokered_run (h : Brokered s) {previous : Bytes}
    (hphase : PhaseOk s call command (.ready slot previous)) (result snapshot : Json) :
    Brokered (s.run slot call command previous result snapshot) := by
  obtain ⟨hheld, hruntime⟩ := hphase
  have hasks : ∀ ask ∈ asksOf (s.slots slot).token command previous, Faithful s slot ask := by
    intro ask hask
    rcases List.mem_append.mp hask with hprevious | hmine
    · split_ifs at hprevious
      · cases hprevious
      · rw [List.mem_singleton.mp hprevious]
        trivial
    · rcases List.mem_cons.mp hmine with rfl | hlook
      · refine ⟨fun hne => ?_, hruntime⟩
        obtain ⟨howner, hnamed⟩ := lease_of_held hheld hne
        rw [← howner]
        exact ⟨h.orderly.leased slot (howner ▸ hne), hnamed⟩
      · rw [List.mem_singleton.mp hlook]
        trivial
  exact h.goTo (AtSlot.of_slot h hheld.lock_eq _ (.inr ⟨rfl, rfl⟩) (faithful_ask h rfl rfl hasks))
    (hheld.setSlot hheld.busy rfl rfl)

theorem brokered_mark (h : Brokered s) (hheld : Held s slot call command) (result snapshot : Json) :
    Brokered (s.mark slot call command result snapshot) :=
  h.goTo (AtSlot.of_slot h hheld.lock_eq _ (.inr ⟨rfl, rfl⟩) (faithful_kept h rfl rfl))
    (hheld.setSlot hheld.busy rfl rfl)

theorem brokered_check (h : Brokered s) (hheld : Held s slot call command)
    (result snapshot : Json) : Brokered (s.check slot call command result snapshot) :=
  h.goTo (.refl h hheld.lock_eq) hheld

/-- The call ends, and may give the slot back. -/
theorem brokered_settle (h : Brokered s) (hheld : Held s slot call command)
    (result snapshot status : Json) (release : Bool) (now : Int) :
    Brokered (s.settle slot call command result snapshot status release now) := by
  have hasks : ∀ ask ∈ asksOfRelease snapshot release, Faithful s slot ask := by
    intro ask hask
    unfold asksOfRelease at hask
    split_ifs at hask
    · rcases List.mem_pair.mp hask with rfl | rfl <;> trivial
    · cases hask
  have hgiven : AtSlot s (s.setSlot slot
      (cleared (settled (s.slots slot) snapshot status release now))) slot call :=
    AtSlot.of_slot h hheld.lock_eq _ (lapsed_cleared _) (faithful_ask h rfl rfl hasks)
  have hkept : AtSlot s (s.setSlot slot (settled (s.slots slot) snapshot status release now))
      slot call :=
    AtSlot.of_slot h hheld.lock_eq _ (.inr ⟨rfl, rfl⟩) (faithful_ask h rfl rfl hasks)
  unfold settle
  split_ifs
  · exact h.reply (hgiven.of_holder none) _
  · exact h.reply (hkept.of_holder none) _

/-! ### A step -/

/-- A call goes on. -/
theorem brokered_proceed (h : Brokered s) (hcall : s.calls call = some c) (removed : Bool)
    (result snapshot : Json) (now : Int) :
    Brokered (s.proceed call removed result snapshot now c) := by
  have hphase := h.phases call c hcall
  obtain ⟨command, phase⟩ := c
  cases phase with
  | waiting slot =>
    show Brokered (if s.holder slot = none then s.grant slot call command else s)
    split_ifs with hfree
    · exact brokered_grant h hfree call command
    · exact h
  | granted slot token incarnation previous => exact brokered_renew h hphase removed
  | ready slot previous => exact brokered_run h hphase result snapshot
  | ran slot => exact brokered_mark h hphase _ _
  | marked slot => exact brokered_check h hphase _ _
  | checked slot => exact brokered_settle h hphase _ _ _ _ _

/-- A call comes to wait for a slot, or ends before it has one. -/
theorem Brokered.of_calls (h : Brokered s) {calls : Nat → Option BrokerCall}
    {replies : List (Nat × Json)}
    (hcalls : ∀ t c, calls t = some c → s.calls t = some c ∨ lockedBy c.phase = none) :
    Brokered { s with calls, replies } where
  orderly := h.orderly.of_lapsed rfl (List.Sublist.refl _) fun _ => .refl _
  phases t c hc := by
    rcases hcalls t c hc with hold | hnew
    · exact (h.phases t c hold).congr fun _ _ => ⟨rfl, rfl, rfl, rfl, rfl⟩
    · obtain ⟨command, phase⟩ := c
      cases phase with
      | waiting => trivial
      | granted => cases hnew
      | ready => cases hnew
      | ran => cases hnew
      | marked => cases hnew
      | checked => cases hnew
  faithful slot ask hask := (h.faithful slot ask hask).congr (List.Subset.refl _) rfl

/-- `Execute` is called; a new token is none of those that were given. -/
theorem brokered_called (h : Brokered s) {world : BrokerWorld}
    (hfresh : world.randomToken ∉ s.leases.map Prod.fst) (call : Nat) (command : Json) :
    Brokered (s.called call command world) := by
  have hbrokered := h.of_moved (moved_admission h.orderly hfresh command)
  unfold called
  generalize s.admission command world = admitted at hbrokered
  obtain ⟨s', out⟩ := admitted
  cases out with
  | inl result =>
    refine hbrokered.of_calls fun t c hc => .inl ?_
    rw [Function.update_apply] at hc
    split_ifs at hc
    exact hc
  | inr slot =>
    refine hbrokered.of_calls fun t c hc => ?_
    rw [Function.update_apply] at hc
    split_ifs at hc
    · cases hc
      exact .inr rfl
    · exact .inl hc

/-- `Maintain` and `Shutdown` ask a browser nothing of a session. -/
theorem brokered_asked (h : Brokered s) (hfree : s.holder slot = none) {value : BrokerSlot}
    {asks : List BrowserAsk} (hvalue : value.runtime = (s.slots slot).runtime.ask asks)
    (hruntime : value.runtimeToken = (s.slots slot).runtimeToken)
    (hlapsed : Lapsed (s.slots slot) value) (hasks : ∀ ask ∈ asks, Faithful s slot ask) :
    Brokered (s.setSlot slot value) := by
  have hlock : ∀ t, s.holder slot = some t → t = 0 := fun t ht => by
    rw [hfree] at ht
    cases ht
  have hat := AtSlot.of_slot h hlock value hlapsed (faithful_ask h hvalue hruntime hasks)
  refine h.at_slot slot hat.orderly hat.leases_subset hat.other (fun t c hc => .inl ⟨hc, ?_⟩)
    hat.asked
  rw [hfree]
  exact (Option.some_ne_none t).symm

/-- What the broker takes for granted of a step: a new token was never given. -/
def FreshToken (s : BrokerState) : BrokerEvent → Prop
  | .call _ _ world => world.randomToken ∉ s.leases.map Prod.fst
  | _ => True

instance (s : BrokerState) : DecidablePred (FreshToken s)
  | .call _ _ world => inferInstanceAs (Decidable (world.randomToken ∉ s.leases.map Prod.fst))
  | .proceed .. | .maintain .. | .stop | .stopSlot _ => isTrue trivial

theorem brokered_step (h : Brokered s) {e : BrokerEvent} (hfresh : FreshToken s e) :
    Brokered (s.step e) := by
  cases e with
  | call call command world =>
    cases hcall : s.calls call with
    | none => simpa only [step, hcall] using brokered_called h hfresh call command
    | some c => simpa only [step, hcall] using h
  | proceed call removed result snapshot now =>
    cases hcall : s.calls call with
    | none => simpa only [step, hcall] using h
    | some c =>
      simpa only [step, hcall] using brokered_proceed h hcall removed result snapshot now
  | maintain slot snapshot =>
    simp only [step]
    split_ifs with hfree
    · refine brokered_asked h hfree rfl rfl (.inr ⟨rfl, rfl⟩) fun ask hask => ?_
      rcases List.mem_pair.mp hask with rfl | rfl <;> trivial
    · exact h
  | stop =>
    exact h.of_moved ⟨rfl, rfl, fun _ => .refl _, List.Subset.refl _,
      h.orderly.of_lapsed rfl (List.nil_sublist _) fun _ => .refl _⟩
  | stopSlot slot =>
    simp only [step]
    split_ifs with hfree
    · refine brokered_asked h hfree rfl rfl (.inr ⟨rfl, rfl⟩) fun ask hask => ?_
      rw [List.mem_singleton.mp hask]
      trivial
    · exact h

/-! ### Runs -/

/-- What a broker starts from: no session has two of the saved browsers, and
the tokens of those that have a session are new. -/
structure Bootable (saved : SlotId → Json) (tokens : SlotId → Bytes) : Prop where
  sessions : ∀ i j, sessionOf (saved i) ≠ [] → sessionOf (saved i) = sessionOf (saved j) → i = j
  tokens : ∀ i j, sessionOf (saved i) ≠ [] → sessionOf (saved j) ≠ [] → tokens i = tokens j → i = j

variable {saved : SlotId → Json} {tokens : SlotId → Bytes} {live : Bytes → Bool} {settings : Json}
  {now : Int}

theorem owner_boot (i : SlotId) :
    ((boot saved tokens live settings now).slots i).owner = sessionOf (saved i) := by
  show (if sessionOf (saved i) = [] then _ else _ : BrokerSlot).owner = _
  split_ifs with hnone
  · exact hnone.symm
  · rfl

theorem brokered_boot (h : Bootable saved tokens) :
    Brokered (boot saved tokens live settings now) where
  orderly := by
    refine ⟨?_, fun _ hwaiter => (List.not_mem_nil hwaiter).elim, Nat.zero_le _, List.nodup_nil,
      ?_, ?_⟩
    · intro i j hi hij
      rw [owner_boot] at hi hij
      rw [owner_boot j] at hij
      exact h.sessions i j hi hij
    · intro i hi
      rw [owner_boot] at hi ⊢
      refine List.mem_map.mpr ⟨i, ?_, ?_⟩
      · exact List.mem_filter.mpr ⟨List.mem_finRange i, decide_eq_true hi⟩
      · show _ = ((if sessionOf (saved i) = [] then _ else _ : BrokerSlot).token, _)
        rw [if_neg hi]
    · show (List.map Prod.fst (List.map _ _)).Nodup
      rw [List.map_map]
      refine List.Nodup.map_on (fun i hi j hj hij => ?_) ((List.nodup_finRange _).filter _)
      exact h.tokens i j (of_decide_eq_true (List.mem_filter.mp hi).2)
        (of_decide_eq_true (List.mem_filter.mp hj).2) hij
  phases _ _ hc := by cases hc
  faithful slot ask hask := by
    have hmade : ((boot saved tokens live settings now).slots slot).runtime = made := by
      show (if sessionOf (saved slot) = [] then _ else _ : BrokerSlot).runtime = _
      split_ifs <;> rfl
    rw [hmade] at hask
    rw [List.mem_singleton.mp hask]
    trivial

/-- Whatever the calls are and in whatever order they take their steps. -/
theorem brokered_of_run (hboot : Bootable saved tokens)
    (h : Run step FreshToken (boot saved tokens live settings now) s) : Brokered s :=
  h.invariant (brokered_boot hboot) fun _ _ hs hfresh => brokered_step hs hfresh

/-! ### Main results -/

/-- Sessions and calls do not get in each other's way. -/
structure Exclusive (s : BrokerState) : Prop where
  /-- no session has two browsers -/
  owners : ∀ i j, (s.slots i).owner ≠ [] → (s.slots i).owner = (s.slots j).owner → i = j
  /-- no session waits for a browser and has one -/
  waiters : ∀ waiter ∈ s.waiting, ∀ i, (s.slots i).owner ≠ waiter.session
  bounded : s.waiting.length ≤ kMaxWaiting
  /-- two calls are not behind the lock of one browser -/
  locks : ∀ t u c d slot, s.calls t = some c → s.calls u = some d →
    lockedBy c.phase = some slot → lockedBy d.phase = some slot → t = u
  /-- nor does one session have two calls behind locks -/
  sessions : ∀ t u c d i j, s.calls t = some c → s.calls u = some d →
    lockedBy c.phase = some i → lockedBy d.phase = some j → sessionOf c.command ≠ [] →
      sessionOf c.command = sessionOf d.command → t = u
  /-- a call that is behind a lock has the lease of the browser until it ends -/
  held : ∀ t c slot, s.calls t = some c → lockedBy c.phase = some slot →
    (s.slots slot).busy = true ∧ leaseChanged (s.slots slot) c.command = false

/-- **Exclusion**: in every state that any calls reach in any order of their
steps. -/
theorem run_exclusive (hboot : Bootable saved tokens)
    (h : Run step FreshToken (boot saved tokens live settings now) s) : Exclusive s := by
  have hs := brokered_of_run hboot h
  have hheld : ∀ t c slot, s.calls t = some c → lockedBy c.phase = some slot →
      Held s slot t c.command := fun t c slot hc hlock => (hs.phases t c hc).held hlock
  have hlocks : ∀ t u c d slot, s.calls t = some c → s.calls u = some d →
      lockedBy c.phase = some slot → lockedBy d.phase = some slot → t = u := by
    intro t u c d slot hc hd hlock hlock'
    exact (hheld u d slot hd hlock').lock_eq t (hheld t c slot hc hlock).holder
  refine ⟨hs.orderly.owners, fun waiter hwaiter => (hs.orderly.waiters waiter hwaiter).2,
    hs.orderly.bounded, hlocks, ?_, fun t c slot hc hlock => ⟨(hheld t c slot hc hlock).busy,
      (hheld t c slot hc hlock).lease⟩⟩
  intro t u c d i j hc hd hlock hlock' hne hsame
  have hi := (lease_of_held (hheld t c i hc hlock) hne).1
  have hj := (lease_of_held (hheld u d j hd hlock') (hsame ▸ hne)).1
  -- both slots are of the one session
  have hij : i = j := hs.orderly.owners i j (hi ▸ hne) (by rw [hi, hj, hsame])
  exact hlocks t u c d i hc hd hlock (hij ▸ hlock')

/-- A command of a session, with the other members it has. -/
def sessionCommand (op session : Bytes) (members : List (Bytes × Json)) : Json :=
  .ofFields ((lit "op", .str op) :: (lit "session_id", .str session) :: members)

def firstSession : Bytes := lit "0123456789abcdef"
def secondSession : Bytes := lit "fedcba9876543210"
def firstLease : Bytes := lit "00112233445566778899aabbccddeeff"
def secondLease : Bytes := lit "ffeeddccbbaa99887766554433221100"

/-- A command under a lease. -/
def underLease (op session lease : Bytes) : Json :=
  sessionCommand op session [(lit "lease", .str lease)]

/-- The world of a call, with what a new token would be. -/
def worldWith (token : Bytes) : BrokerWorld := ⟨0, fun _ => true, token, true⟩

def goesOn (call : Nat) : BrokerEvent := .proceed call true .null .null 0

/-- Two sessions acquire a research browser each.  Their commands take turns:
the first of the one ends, and its second runs while that of the other waits
for the lock its first still has. -/
def exampleCalls : List BrokerEvent :=
  [.call 0 (sessionCommand (lit "acquire") firstSession
      [(lit "request_id", .str (lit "1111111111111111"))]) (worldWith firstLease),
    .call 1 (sessionCommand (lit "acquire") secondSession
      [(lit "request_id", .str (lit "2222222222222222"))]) (worldWith secondLease),
    .call 2 (underLease (lit "open") firstSession firstLease) (worldWith []),
    .call 3 (underLease (lit "open") secondSession secondLease) (worldWith [])] ++
  [2, 3, 2, 3, 2, 3, 2, 2, 2].map goesOn ++
  [.call 4 (underLease (lit "read") firstSession firstLease) (worldWith []),
    .call 5 (underLease (lit "read") secondSession secondLease) (worldWith [])] ++
  [4, 5, 4, 5, 4, 5].map goesOn

/-- The broker then. -/
def exampleBroker : BrokerState :=
  exampleCalls.foldl step (boot (fun _ => .null) (fun _ => []) (fun _ => false)
    (Json.ofFields [(lit "parallel_capacity", .int 2)]) 0)

theorem bootable_example : Bootable (fun _ => .null) (fun _ => []) :=
  ⟨fun _ _ hi => (hi rfl).elim, fun _ _ hi => (hi rfl).elim⟩

theorem run_exclusive_example :
    exampleBroker.holder 1 = some 4 ∧ exampleBroker.holder 2 = some 3 ∧ Exclusive exampleBroker :=
  ⟨by decide +kernel, by decide +kernel,
    run_exclusive bootable_example (Run.of_allOk (by decide +kernel))⟩

/-- **Isolation**: a browser has run what a session asked only under a lease
that was given to this session, and named by the command unless it is a bare
release; and all sessions' commands that a research browser has run since it was
made were of one session and of one lease. -/
theorem run_isolated (hboot : Bootable saved tokens)
    (h : Run step FreshToken (boot saved tokens live settings now) s) {slot : SlotId}
    {lease lease' : Bytes} {command command' : Json} (hne : sessionOf command ≠ [])
    (hne' : sessionOf command' ≠ [])
    (hran : .command lease command ∈ (s.slots slot).runtime.asked)
    (hran' : .command lease' command' ∈ (s.slots slot).runtime.asked) :
    (lease, sessionOf command) ∈ s.leases ∧
      (opOf command ≠ lit "release" ∨ command.contains (lit "lease") = true →
        leaseOf command = lease) ∧
      (slot ≠ 0 → lease = lease' ∧ sessionOf command = sessionOf command') := by
  have hs := brokered_of_run hboot h
  obtain ⟨hgiven, hone⟩ := hs.faithful slot _ hran
  obtain ⟨hgiven', hone'⟩ := hs.faithful slot _ hran'
  refine ⟨(hgiven hne).1, (hgiven hne).2, fun hslot => ?_⟩
  have hval : slot.val ≠ 0 := fun hval => hslot (Fin.ext hval)
  have hlease : lease = lease' := (hone hval).trans (hone' hval).symm
  refine ⟨hlease, ?_⟩
  -- one lease was given to one session
  have hsame := List.inj_on_of_nodup_map hs.orderly.tokens (hgiven hne).1
    (hgiven' hne').1 hlease
  exact congrArg Prod.snd hsame

theorem run_isolated_example :
    let opened := underLease (lit "open") firstSession firstLease
    let reading := underLease (lit "read") firstSession firstLease
    opened ≠ reading ∧ .command firstLease opened ∈ (exampleBroker.slots 1).runtime.asked ∧
      .command firstLease reading ∈ (exampleBroker.slots 1).runtime.asked ∧
      (firstLease, sessionOf opened) ∈ exampleBroker.leases ∧ leaseOf opened = firstLease ∧
      sessionOf opened = sessionOf reading := by
  intro opened reading
  have hopened : .command firstLease opened ∈ (exampleBroker.slots 1).runtime.asked := by
    decide +kernel
  have hreading : .command firstLease reading ∈ (exampleBroker.slots 1).runtime.asked := by
    decide +kernel
  obtain ⟨hgiven, hlease, hone⟩ := run_isolated bootable_example (Run.of_allOk (by decide +kernel))
    (by decide : sessionOf opened ≠ []) (by decide : sessionOf reading ≠ []) hopened hreading
  exact ⟨by decide, hopened, hreading, hgiven, hlease (.inl (by decide)), (hone (by decide)).2⟩

end BrokerState

end UAgent
