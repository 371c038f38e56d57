/-
UAgent/Browser/Leases.lean

What the leases of the broker keep, whatever the calls and the order of their
steps.

The queue and the owners are orderly in every state (`Orderly`): no session has
two browsers or waits for one while it has one.  A call that is behind the lock
of a slot has its lease until it ends (`Held`), so that a browser runs the
commands of a session under that session's own lease (`Faithful`), and a
research browser those of one lease only.
-/
import UAgent.Browser.Broker

namespace UAgent

open Bytes

namespace BrokerState

variable {s s' : BrokerState} {command : Json} {world : BrokerWorld} {session : Bytes}
  {slot i j : SlotId}

/-! ### Owners and waiters -/

/-- What makes a request one. -/
def requestKey (waiter : BrokerWaiter) : Bytes × Bytes := (waiter.session, waiter.request)

structure Orderly (s : BrokerState) : Prop where
  owners : ∀ i j, (s.slots i).owner ≠ [] → (s.slots i).owner = (s.slots j).owner → i = j
  waiters : ∀ waiter ∈ s.waiting, waiter.session ≠ [] ∧ ∀ i, (s.slots i).owner ≠ waiter.session
  bounded : s.waiting.length ≤ kMaxWaiting
  unique : (s.waiting.map requestKey).Nodup
  leased : ∀ i, (s.slots i).owner ≠ [] → ((s.slots i).token, (s.slots i).owner) ∈ s.leases
  tokens : (s.leases.map Prod.fst).Nodup

/-- What a section under the lock of the broker alone may do to a slot: it
leaves the browser as it is, and the lease of a call that is under way. -/
structure SlotMoved (before after : BrokerSlot) : Prop where
  runtime : after.runtime = before.runtime
  runtimeToken : after.runtimeToken = before.runtimeToken
  busy : after.busy = before.busy
  kept : before.busy = true → after.owner = before.owner ∧ after.token = before.token

theorem SlotMoved.refl (value : BrokerSlot) : SlotMoved value value :=
  ⟨rfl, rfl, rfl, fun _ => ⟨rfl, rfl⟩⟩

theorem SlotMoved.trans {a b c : BrokerSlot} (h : SlotMoved a b) (h' : SlotMoved b c) :
    SlotMoved a c where
  runtime := h'.runtime.trans h.runtime
  runtimeToken := h'.runtimeToken.trans h.runtimeToken
  busy := h'.busy.trans h.busy
  kept hbusy :=
    have hafter := h'.kept (h.busy.trans hbusy)
    ⟨hafter.1.trans (h.kept hbusy).1, hafter.2.trans (h.kept hbusy).2⟩

/-- Such a section as a whole. -/
structure Moved (s s' : BrokerState) : Prop where
  calls : s'.calls = s.calls
  holder : s'.holder = s.holder
  slots : ∀ i, SlotMoved (s.slots i) (s'.slots i)
  leases : s.leases ⊆ s'.leases
  orderly : Orderly s'

theorem Moved.trans {s'' : BrokerState} (h : Moved s s') (h' : Moved s' s'') : Moved s s'' where
  calls := h'.calls.trans h.calls
  holder := h'.holder.trans h.holder
  slots i := (h.slots i).trans (h'.slots i)
  leases := List.Subset.trans h.leases h'.leases
  orderly := h'.orderly

theorem Moved.refl (h : Orderly s) : Moved s s :=
  ⟨rfl, rfl, fun _ => .refl _, List.Subset.refl _, h⟩

/-- A slot is left without an owner, or with the owner and the lease it had. -/
def Lapsed (before after : BrokerSlot) : Prop :=
  after.owner = [] ∨ after.owner = before.owner ∧ after.token = before.token

/-- No lease is given and nobody joins the queue. -/
theorem Orderly.of_lapsed (h : Orderly s) (hleases : s'.leases = s.leases)
    (hwaiting : (s'.waiting.map requestKey).Sublist (s.waiting.map requestKey))
    (hslots : ∀ i, Lapsed (s.slots i) (s'.slots i)) : Orderly s' where
  owners i j hi hij := by
    have hown : ∀ k, (s'.slots k).owner ≠ [] → (s'.slots k).owner = (s.slots k).owner :=
      fun k hk => ((hslots k).resolve_left hk).1
    have hj : (s'.slots j).owner ≠ [] := hij ▸ hi
    exact h.owners i j (hown i hi ▸ hi) (by rw [← hown i hi, ← hown j hj, hij])
  waiters waiter hwaiter := by
    obtain ⟨old, hold, hkey⟩ :=
      List.mem_map.mp (hwaiting.subset (List.mem_map_of_mem (f := requestKey) hwaiter))
    have hsession : old.session = waiter.session := congrArg Prod.fst hkey
    obtain ⟨hne, hnot⟩ := h.waiters old hold
    rw [hsession] at hne hnot
    refine ⟨hne, fun k => ?_⟩
    rcases hslots k with hempty | ⟨howner, -⟩
    · exact fun heq => hne (heq ▸ hempty)
    · exact howner ▸ hnot k
  bounded := by
    have := hwaiting.length_le
    rw [List.length_map, List.length_map] at this
    exact this.trans h.bounded
  unique := h.unique.sublist hwaiting
  leased k hk := by
    obtain ⟨howner, htoken⟩ := (hslots k).resolve_left hk
    rw [hleases, howner, htoken]
    exact h.leased k (howner ▸ hk)
  tokens := hleases ▸ h.tokens

@[simp] theorem slots_setSlot (s : BrokerState) (slot i : SlotId) (value : BrokerSlot) :
    (s.setSlot slot value).slots i = if i = slot then value else s.slots i :=
  Function.update_apply _ _ _ _

/-- A change of one slot is a change of all. -/
theorem forall_setSlot {P : BrokerSlot → BrokerSlot → Prop} {value : BrokerSlot}
    (refl : ∀ value, P value value) (h : P (s.slots slot) value) (i : SlotId) :
    P (s.slots i) ((s.setSlot slot value).slots i) := by
  rw [slots_setSlot]
  split_ifs with hi
  · exact hi ▸ h
  · exact refl _

theorem Lapsed.refl (value : BrokerSlot) : Lapsed value value := .inr ⟨rfl, rfl⟩

theorem lapsed_cleared (value : BrokerSlot) : Lapsed value (cleared value) := .inl rfl

/-! ### Prune -/

theorem busy_of_expired {value : BrokerSlot} (h : expired world value = true) :
    value.busy = false := by
  simp only [expired, Bool.and_eq_true, Bool.not_eq_true'] at h
  exact h.1.1.2

theorem moved_prune (h : Orderly s) (world : BrokerWorld) : Moved s (s.prune world) where
  calls := rfl
  holder := rfl
  leases := List.Subset.refl _
  slots i := by
    show SlotMoved (s.slots i)
      (if expired world (s.slots i) then cleared (s.slots i) else s.slots i)
    split_ifs with hexpired
    · exact ⟨rfl, rfl, rfl, fun hbusy =>
        absurd (busy_of_expired hexpired) (Bool.not_eq_false _ ▸ hbusy)⟩
    · exact .refl _
  orderly := by
    refine h.of_lapsed rfl (List.filter_sublist.map _) fun i => ?_
    show Lapsed (s.slots i) (if expired world (s.slots i) then cleared (s.slots i) else s.slots i)
    split_ifs
    · exact lapsed_cleared _
    · exact .refl _

/-! ### The queue -/

theorem moved_waiting (h : Orderly s) {waiting : List BrokerWaiter} {capacity : Nat}
    (hwaiting : (waiting.map requestKey).Sublist (s.waiting.map requestKey)) :
    Moved s { s with waiting, capacity } :=
  ⟨rfl, rfl, fun _ => .refl _, List.Subset.refl _, h.of_lapsed rfl hwaiting fun _ => .refl _⟩

theorem moved_configure (h : Orderly s) (command : Json) (world : BrokerWorld) :
    Moved s (s.configure command world).1 := by
  unfold configure
  split_ifs
  · exact .refl h
  · exact .refl h
  · refine moved_waiting h ?_
    split_ifs
    · rw [List.map_map]
      exact List.Sublist.refl _
    · exact List.Sublist.refl _

theorem owner_ne_of_owned (h : s.owned session = none) (hne : session ≠ []) (i : SlotId) :
    (s.slots i).owner ≠ session := by
  rw [owned, if_neg hne, List.find?_eq_none] at h
  simpa using h i (List.mem_finRange i)

theorem ne_nil_of_opaqueId {value : Bytes} (h : ¬opaqueId value = false) : value ≠ [] := by
  rintro rfl
  exact h (by decide)

theorem isOf_eq_true {waiter : BrokerWaiter} :
    isOf command waiter = true ↔ requestKey waiter = (sessionOf command, requestOf command) := by
  simp [isOf, requestKey]

/-- A session that has no browser joins the queue, or asks again. -/
theorem moved_joinQueue (h : Orderly s) {now : Int} {waiting : List BrokerWaiter}
    (hne : sessionOf command ≠ []) (hnot : ∀ i, (s.slots i).owner ≠ sessionOf command)
    (hjoin : s.joinQueue command now = some waiting) : Moved s { s with waiting } := by
  unfold joinQueue at hjoin
  by_cases hmine : s.waiting.any (isOf command) = true
  · rw [if_pos hmine, Option.some_inj] at hjoin
    refine moved_waiting h ?_
    have hkeys := List.map_modify_of_eq (f := fun waiter : BrokerWaiter =>
      { waiter with polled := now }) (g := requestKey) (fun _ => rfl)
    rw [← hjoin, hkeys]
  · rw [if_neg hmine] at hjoin
    by_cases hfull : kMaxWaiting ≤ s.waiting.length
    · rw [if_pos hfull] at hjoin
      exact absurd hjoin (Option.some_ne_none _).symm
    rw [if_neg hfull, Option.some_inj] at hjoin
    subst hjoin
    refine ⟨rfl, rfl, fun _ => .refl _, List.Subset.refl _, h.owners, ?_, ?_, ?_, h.leased,
      h.tokens⟩
    · intro waiter hwaiter
      rcases List.mem_append.mp hwaiter with hold | hnew
      · exact h.waiters waiter hold
      · rw [List.mem_singleton.mp hnew]
        exact ⟨hne, hnot⟩
    · show (s.waiting ++ [s.newWaiter command now]).length ≤ kMaxWaiting
      rw [List.length_append, List.length_singleton]
      omega
    · show ((s.waiting ++ [s.newWaiter command now]).map requestKey).Nodup
      rw [List.map_append]
      refine h.unique.append (List.nodup_singleton _) ?_
      intro key hkey hnew
      obtain ⟨waiter, hwaiter, rfl⟩ := List.mem_map.mp hkey
      refine hmine (List.any_eq_true.mpr ⟨waiter, hwaiter, isOf_eq_true.mpr ?_⟩)
      exact List.mem_singleton.mp hnew

/-! ### A lease is given -/

theorem free_of_unowned (h : s.unowned slot = true) :
    (s.slots slot).owner = [] ∧ (s.slots slot).busy = false := by
  simp only [unowned, Bool.and_eq_true, decide_eq_true_eq, Bool.not_eq_true'] at h
  exact h.1

/-- A session without a browser gets one that nobody has. -/
theorem moved_give (h : Orderly s) (hfree : s.unowned slot = true)
    (hfresh : world.randomToken ∉ s.leases.map Prod.fst)
    (hnot : ∀ i, (s.slots i).owner ≠ session) : Moved s (s.give slot session world) := by
  have hbusy := (free_of_unowned hfree).2
  have hslot : ∀ i, (s.give slot session world).slots i =
      if i = slot then
        { s.slots slot with
          token := world.randomToken
          owner := session
          live := world.live session
          used := world.now }
      else s.slots i := fun i => slots_setSlot s slot i _
  refine ⟨rfl, rfl, fun i => ?_, List.subset_append_left _ _, ?_, ?_, ?_, ?_, ?_, ?_⟩
  · rw [hslot]
    split_ifs with hi
    · subst hi
      exact ⟨rfl, rfl, rfl, fun hb => absurd hb (Bool.not_eq_true _ ▸ hbusy)⟩
    · exact .refl _
  · intro i j hi hij
    rw [hslot] at hi hij
    rw [hslot j] at hij
    split_ifs at hi hij with his hjs hjs
    · rw [his, hjs]
    · exact absurd hij.symm (hnot j)
    · exact absurd hij (hnot i)
    · exact h.owners i j hi hij
  · intro waiter hwaiter
    obtain ⟨hold, hother⟩ := List.mem_filter.mp hwaiter
    obtain ⟨hsome, hnone⟩ := h.waiters waiter hold
    refine ⟨hsome, fun i => ?_⟩
    rw [hslot]
    split_ifs
    · exact fun heq => (of_decide_eq_true hother) heq.symm
    · exact hnone i
  · exact (List.length_filter_le _ _).trans h.bounded
  · exact h.unique.sublist (List.filter_sublist.map _)
  · intro i hi
    rw [hslot] at hi ⊢
    split_ifs at hi ⊢
    · exact List.mem_append_right _ (List.mem_singleton_self _)
    · exact List.mem_append_left _ (h.leased i hi)
  · show ((s.leases ++ [(world.randomToken, session)]).map Prod.fst).Nodup
    rw [List.map_append]
    exact h.tokens.append (List.nodup_singleton _) (by simpa using hfresh)

theorem moved_giveFirst (h : Orderly s) (hfresh : world.randomToken ∉ s.leases.map Prod.fst)
    (hnot : ∀ i, (s.slots i).owner ≠ sessionOf command) :
    Moved s (s.giveFirst command world).1 := by
  unfold giveFirst
  by_cases hahead : s.ahead command ≠ []
  · rw [if_pos hahead]
    exact .refl h
  rw [if_neg hahead]
  cases hfind : (s.eligible (s.wantsShared command)).find? s.unowned with
  | none => exact .refl h
  | some slot =>
    have hfree : s.unowned slot = true := List.find?_some hfind
    obtain ⟨howner, hbusy⟩ := free_of_unowned hfree
    dsimp only
    split_ifs
    · refine ⟨rfl, rfl, forall_setSlot SlotMoved.refl ?_, List.Subset.refl _, ?_⟩
      · exact ⟨rfl, rfl, rfl, fun hb => absurd hb (Bool.not_eq_true _ ▸ hbusy)⟩
      · exact h.of_lapsed rfl (List.Sublist.refl _) (forall_setSlot Lapsed.refl (.inl howner))
    · exact moved_give h hfree hfresh hnot

theorem moved_acquire (h : Orderly s) (hfresh : world.randomToken ∉ s.leases.map Prod.fst)
    (command : Json) : Moved s (s.acquire command world).1 := by
  unfold acquire
  split_ifs with hinvalid hcancel
  · exact .refl h
  · exact moved_waiting h (List.filter_sublist.map _)
  · have hne : sessionOf command ≠ [] := ne_nil_of_opaqueId (not_or.mp hinvalid).1
    cases howned : s.owned (sessionOf command) with
    | some slot =>
      refine ⟨rfl, rfl, forall_setSlot SlotMoved.refl ⟨rfl, rfl, rfl, fun _ => ⟨rfl, rfl⟩⟩,
        List.Subset.refl _, ?_⟩
      exact h.of_lapsed rfl (List.Sublist.refl _) (forall_setSlot Lapsed.refl (.inr ⟨rfl, rfl⟩))
    | none =>
      have hnot := owner_ne_of_owned howned hne
      dsimp only
      cases hjoin : s.joinQueue command world.now with
      | none => exact .refl h
      | some waiting =>
        have hmoved := moved_joinQueue h hne hnot hjoin
        exact hmoved.trans (moved_giveFirst hmoved.orderly hfresh hnot)

/-- **What `Execute` does under the first lock** leaves the browsers and the
leases that are in use alone, and owners and waiters orderly. -/
theorem moved_admission (h : Orderly s) (hfresh : world.randomToken ∉ s.leases.map Prod.fst)
    (command : Json) : Moved s (s.admission command world).1 := by
  unfold admission
  split_ifs
  · exact .refl h
  · exact .refl h
  have hpruned := moved_prune h world
  refine hpruned.trans ?_
  have horderly := hpruned.orderly
  unfold dispatch
  split_ifs
  · exact moved_configure horderly command world
  · exact moved_acquire horderly hfresh command
  · unfold released
    cases (s.prune world).owned (sessionOf command) <;>
      exact moved_waiting horderly (List.filter_sublist.map _)
  · unfold looked
    cases ((s.prune world).owned (sessionOf command)).or (instanceOf command) with
    | none => exact .refl horderly
    | some slot =>
      dsimp only
      split_ifs <;> exact .refl horderly
  · unfold addressed
    cases (s.prune world).owned (sessionOf command) with
    | some slot => exact .refl horderly
    | none =>
      dsimp only
      split_ifs
      · exact .refl horderly
      · cases instanceOf command <;> exact .refl horderly

/-! ### Behind the lock of a slot -/

/-- The call has the lock of the slot, and its lease is the slot's. -/
structure Held (s : BrokerState) (slot : SlotId) (call : Nat) (command : Json) : Prop where
  holder : s.holder slot = some call
  busy : (s.slots slot).busy = true
  lease : leaseChanged (s.slots slot) command = false

/-- The slot whose lock a call has. -/
def lockedBy : BrokerPhase → Option SlotId
  | .waiting _ => none
  | .granted slot _ _ _ | .ready slot _ | .ran slot _ _ | .marked slot _ _ | .checked slot _ _ _ =>
    some slot

/-- What a call knows of its slot. -/
def PhaseOk (s : BrokerState) (call : Nat) (command : Json) : BrokerPhase → Prop
  | .waiting _ => True
  | .granted slot token _ _ => Held s slot call command ∧ (s.slots slot).token = token
  | .ready slot _ =>
    Held s slot call command ∧ (slot.val ≠ 0 → (s.slots slot).token = (s.slots slot).runtimeToken)
  | .ran slot _ _ | .marked slot _ _ | .checked slot _ _ _ => Held s slot call command

/-- A browser runs a command under the lease of the slot, which is the lease of
the session that gave the command; a research browser has one lease. -/
def Faithful (s : BrokerState) (slot : SlotId) : BrowserAsk → Prop
  | .command lease command =>
    (sessionOf command ≠ [] → (lease, sessionOf command) ∈ s.leases ∧
      (opOf command ≠ lit "release" ∨ command.contains (lit "lease") = true →
        leaseOf command = lease)) ∧
      (slot.val ≠ 0 → lease = (s.slots slot).runtimeToken)
  | _ => True

structure Brokered (s : BrokerState) : Prop where
  orderly : Orderly s
  phases : ∀ call c, s.calls call = some c → PhaseOk s call c.command c.phase
  faithful : ∀ slot, ∀ ask ∈ (s.slots slot).runtime.asked, Faithful s slot ask

variable {call : Nat} {phase : BrokerPhase} {ask : BrowserAsk}

theorem PhaseOk.held (h : PhaseOk s call command phase) (hslot : lockedBy phase = some slot) :
    Held s slot call command := by
  cases phase with
  | waiting => cases hslot
  | granted => cases hslot; exact h.1
  | ready => cases hslot; exact h.1
  | ran => cases hslot; exact h
  | marked => cases hslot; exact h
  | checked => cases hslot; exact h

/-- What a call knows of its slot is about the lock and the lease. -/
theorem PhaseOk.congr (h : PhaseOk s call command phase)
    (hsame : ∀ slot, lockedBy phase = some slot → s'.holder slot = s.holder slot ∧
      (s'.slots slot).busy = (s.slots slot).busy ∧ (s'.slots slot).owner = (s.slots slot).owner ∧
      (s'.slots slot).token = (s.slots slot).token ∧
      (s'.slots slot).runtimeToken = (s.slots slot).runtimeToken) :
    PhaseOk s' call command phase := by
  have hheld : ∀ slot, lockedBy phase = some slot → Held s' slot call command := by
    intro slot hslot
    obtain ⟨hholder, hbusy, howner, htoken, -⟩ := hsame slot hslot
    obtain ⟨hold, hb, hl⟩ := h.held hslot
    refine ⟨hholder.trans hold, hbusy.trans hb, ?_⟩
    rw [leaseChanged, howner, htoken]
    exact hl
  cases phase with
  | waiting => trivial
  | granted slot token _ _ => exact ⟨hheld slot rfl, (hsame slot rfl).2.2.2.1.trans h.2⟩
  | ready slot _ =>
    obtain ⟨-, -, -, htoken, hruntime⟩ := hsame slot rfl
    exact ⟨hheld slot rfl, fun hne => (htoken.trans (h.2 hne)).trans hruntime.symm⟩
  | ran slot _ _ => exact hheld slot rfl
  | marked slot _ _ => exact hheld slot rfl
  | checked slot _ _ _ => exact hheld slot rfl

theorem Faithful.congr (h : Faithful s slot ask) (hleases : s.leases ⊆ s'.leases)
    (hruntime : (s'.slots slot).runtimeToken = (s.slots slot).runtimeToken) :
    Faithful s' slot ask := by
  cases ask with
  | command lease command =>
    exact ⟨fun hne => ⟨hleases (h.1 hne).1, (h.1 hne).2⟩, fun hne => (h.2 hne).trans hruntime.symm⟩
  | release => trivial
  | look => trivial
  | stopIfIdle => trivial
  | shutdown => trivial

/-- A section under the lock of the broker alone. -/
theorem Brokered.of_moved (h : Brokered s) (hmoved : Moved s s') : Brokered s' where
  orderly := hmoved.orderly
  phases call c hc := by
    have hphase := h.phases call c (by rw [← hmoved.calls]; exact hc)
    refine hphase.congr fun slot hslot => ?_
    have hmove := hmoved.slots slot
    obtain ⟨howner, htoken⟩ := hmove.kept (hphase.held hslot).busy
    exact ⟨by rw [hmoved.holder], hmove.busy, howner, htoken, hmove.runtimeToken⟩
  faithful slot ask hask := by
    rw [(hmoved.slots slot).runtime] at hask
    exact (h.faithful slot ask hask).congr hmoved.leases (hmoved.slots slot).runtimeToken

/-- A step that changes one slot, whose lock no other call has. -/
theorem Brokered.at_slot (h : Brokered s) (slot : SlotId) (horderly : Orderly s')
    (hleases : s.leases ⊆ s'.leases)
    (hother : ∀ j, j ≠ slot → s'.slots j = s.slots j ∧ s'.holder j = s.holder j)
    (hcalls : ∀ t c, s'.calls t = some c →
      s.calls t = some c ∧ s.holder slot ≠ some t ∨ PhaseOk s' t c.command c.phase)
    (hasked : ∀ ask ∈ (s'.slots slot).runtime.asked, Faithful s' slot ask) : Brokered s' where
  orderly := horderly
  phases t c hc := by
    refine (hcalls t c hc).elim (fun hold => ?_) id
    have hphase := h.phases t c hold.1
    refine hphase.congr fun j hj => ?_
    have hne : j ≠ slot := fun heq => hold.2 (heq ▸ (hphase.held hj).holder)
    obtain ⟨hslots, hholder⟩ := hother j hne
    exact ⟨hholder, by rw [hslots], by rw [hslots], by rw [hslots], by rw [hslots]⟩
  faithful j ask hask := by
    by_cases hj : j = slot
    · subst hj
      exact hasked ask hask
    · rw [(hother j hj).1] at hask
      exact (h.faithful j ask hask).congr hleases (by rw [(hother j hj).1])

end BrokerState

end UAgent
