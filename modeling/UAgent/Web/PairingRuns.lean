/-
UAgent/Web/PairingRuns.lean

Every run of the host as far as pairing goes (src/web/master_auth.cc): which
steps add a device, how many of them one code allows, how often a code is
compared, and whom a request is taken for.

Two invariants carry it.  The code that is held is that of the latest `Pair`
with its deadline (`PairOk`), and a code that was used is gone until the next
one (`spent`).  The rate is an allowance that each comparison uses up.
-/
import UAgent.Web.Pairing

namespace UAgent

open Bytes MasterAuth

/-! ### The log of a run -/

/-- The code of the latest `Pair` and when it was made. -/
def AuthStep.latest : AuthStep → Option (Bytes × Int) → Option (Bytes × Int)
  | .pair token now, _ => some (token, now)
  | .authenticate .., latest => latest
  | .request .., latest => latest

/-- How many codes have been made. -/
def AuthStep.codes : AuthStep → Nat → Nat
  | .pair .., codes => codes + 1
  | .authenticate .., codes => codes
  | .request .., codes => codes

/-- A step of a run, with what was there before it. -/
structure AuthEntry where
  before : MasterAuth
  step : AuthStep
  latest : Option (Bytes × Int)
  codes : Nat

/-- The steps of a run. -/
def entries (parse : Bytes → Option Json) (s : MasterAuth) (latest : Option (Bytes × Int))
    (codes : Nat) : List AuthStep → List AuthEntry
  | [] => []
  | step :: steps =>
    ⟨s, step, latest, codes⟩ ::
      entries parse (s.step parse step) (step.latest latest) (step.codes codes) steps

namespace AuthEntry

def after (parse : Bytes → Option Json) (e : AuthEntry) : MasterAuth := e.before.step parse e.step

/-- A device is there that was not: in memory, or in devices.json. -/
def Adds (parse : Bytes → Option Json) (e : AuthEntry) : Prop :=
  ∃ d, d ∉ e.before.devices ∧
    (d ∈ (e.after parse).devices ∨ d ∈ (e.after parse).saved ∧ d ∉ e.before.saved)

/-- An attempt that compares its code, in the window that began at `w`. -/
def compares (e : AuthEntry) (w : Int) : Bool :=
  match e.step with
  | .authenticate body io => e.before.compares body io w
  | _ => false

/-- The condition on a step.  An attempt that is about to save its device does
not replace the file without the folder being synced; and a request that is
taken for a device by the last cookie of its first header, all before it being
empty, has no other cookie. -/
def Fair (parse : Bytes → Option Json) (e : AuthEntry) : Prop :=
  match e.step with
  | .pair .. => True
  | .authenticate body io =>
    e.before.Redeems parse body io → ∀ fault, io.fault = some fault → fault.replaced = false
  | .request cookies nowMillis .. =>
    ∀ k v, firstCookies cookies = List.replicate k [] ++ [v] →
      e.before.deviceOf nowMillis v ≠ [] → (deviceCookies cookies).length = 1

end AuthEntry

/-- What pairing promises of a run. -/
structure PairingSafe (parse : Bytes → Option Json) (log : List AuthEntry) : Prop where
  /-- Only the code of the latest `Pair`, in time, adds a device. -/
  added : ∀ e ∈ log, e.Adds parse → ∃ body io code made,
    e.step = .authenticate body io ∧ e.latest = some (code, made) ∧ code ≠ [] ∧
      jsonValueStr ((parse body).getD .null) (lit "code") [] = code ∧
        io.now ≤ made + kPairingLifetime
  /-- A code adds one device at most. -/
  once : log.Pairwise fun e e' => e.Adds parse → e'.Adds parse → e.codes ≠ e'.codes
  /-- A window has twelve comparisons at most. -/
  rate : ∀ w, log.countP (·.compares w) ≤ kAuthenticationAttempts
  /-- An error means that nothing was added. -/
  refused : ∀ e ∈ log, ∀ body io message status, e.step = .authenticate body io →
    (e.before.authenticate parse body io).2 = .error message status →
      (e.after parse).devices ⊆ e.before.devices ∧ (e.after parse).saved ⊆ e.before.saved
  /-- A request is a device's by that device's token, in its one cookie. -/
  named : ∀ e ∈ log, ∀ cookies nowMillis revokes fault,
    e.step = .request cookies nowMillis revokes fault →
      e.before.deviceId nowMillis cookies ≠ [] → ∃ d ∈ e.before.devices,
        d.active nowMillis = true ∧ d.id = e.before.deviceId nowMillis cookies ∧
          deviceCookies cookies = [d.token]

/-! ### One step -/

section Step

variable {parse : Bytes → Option Json} {s : MasterAuth} {latest : Option (Bytes × Int)}
  {codes : Nat}

/-- The code held is the latest one, with its deadline. -/
def PairOk (s : MasterAuth) (latest : Option (Bytes × Int)) : Prop :=
  s.pair = [] ∨
    ∃ made, latest = some (s.pair, made) ∧ s.pairDeadline = made + kPairingLifetime

theorem PairOk.congr {s' : MasterAuth} (h : PairOk s latest) (hpair : s'.pair = s.pair)
    (hdeadline : s'.pairDeadline = s.pairDeadline) : PairOk s' latest := by
  unfold PairOk
  rw [hpair, hdeadline]
  exact h

/-- What saving does to the code. -/
theorem persist_pair (s : MasterAuth) (d : Device) (io : AuthIo) :
    (s.persist d io).1.pair = [] ∨
      (s.persist d io).1.pair = s.pair ∧ (s.persist d io).1.pairDeadline = s.pairDeadline := by
  rw [persist_eq]
  cases io.fault with
  | none => exact .inl rfl
  | some fault => cases hreplaced : fault.replaced <;> simp [hreplaced]

theorem authenticate_pair (parse : Bytes → Option Json) (s : MasterAuth) (body : Bytes)
    (io : AuthIo) :
    (s.authenticate parse body io).1.pair = [] ∨
      (s.authenticate parse body io).1.pair = s.pair ∧
        (s.authenticate parse body io).1.pairDeadline = s.pairDeadline := by
  rcases authenticate_cases parse s body io with ⟨hno, -⟩ | ⟨-, s', d, hno, heq⟩
  · exact .inr ⟨hno.pair, hno.pairDeadline⟩
  · rw [heq]
    rcases persist_pair s' d io with hnil | ⟨hpair, hdeadline⟩
    · exact .inl hnil
    · exact .inr ⟨hpair.trans hno.pair, hdeadline.trans hno.pairDeadline⟩

/-- A request that is let in, or not: it adds nothing. -/
theorem step_request (parse : Bytes → Option Json) (s : MasterAuth) (cookies : List Bytes) (nowMillis : Int)
    (revokes : Option Revocation) (fault : Option WriteFault) :
    s.step parse (.request cookies nowMillis revokes fault) = s ∨
      ∃ remove, s.step parse (.request cookies nowMillis revokes fault) =
        s.revokeDevice remove fault := by
  unfold step
  dsimp only
  by_cases hnone : s.deviceId nowMillis cookies = []
  · rw [if_pos hnone]
    exact .inl rfl
  · rw [if_neg hnone]
    rcases revokes with - | - | remove
    · exact .inl rfl
    · exact .inr ⟨_, rfl⟩
    · exact .inr ⟨_, rfl⟩

theorem step_pairOk (h : PairOk s latest) (step : AuthStep) :
    PairOk (s.step parse step) (step.latest latest) := by
  cases step with
  | pair token now => exact .inr ⟨now, rfl, rfl⟩
  | authenticate body io =>
    rcases authenticate_pair parse s body io with hnil | ⟨hpair, hdeadline⟩
    · exact .inl hnil
    · exact h.congr hpair hdeadline
  | request cookies nowMillis revokes fault =>
    rcases step_request parse s cookies nowMillis revokes fault with heq | ⟨remove, heq⟩
    · rw [heq]
      exact h
    · rw [heq]
      obtain ⟨-, hpair, hdeadline, -⟩ := revokeDevice_spec s remove fault
      exact h.congr hpair hdeadline

/-- An attempt that adds a device redeems the code, which is then gone. -/
theorem authenticate_adds {body : Bytes} {io : AuthIo} {d : Device} (hd : d ∉ s.devices)
    (hadds : d ∈ (s.authenticate parse body io).1.devices ∨
      d ∈ (s.authenticate parse body io).1.saved ∧ d ∉ s.saved) :
    s.Redeems parse body io ∧ ((∀ fault, io.fault = some fault → fault.replaced = false) →
      (s.authenticate parse body io).1.pair = []) := by
  rcases authenticate_cases parse s body io with ⟨hno, -⟩ | ⟨hredeems, s', d', hno, heq⟩
  · rcases hadds with hadds | ⟨hadds, hsaved⟩
    · exact absurd (hno.devices hadds) hd
    · exact absurd (hno.saved ▸ hadds) hsaved
  · refine ⟨hredeems, fun hfault => ?_⟩
    rw [heq, persist_eq] at hadds ⊢
    cases hcase : io.fault with
    | none => rfl
    | some fault =>
      rw [hcase] at hadds
      simp only [hfault fault hcase, Bool.false_eq_true, if_false] at hadds
      rcases hadds with hadds | ⟨hadds, hsaved⟩
      · exact absurd (hno.devices hadds) hd
      · exact absurd (hno.saved ▸ hadds) hsaved

/-- An attempt that fails, and whose write did not get through, adds none. -/
theorem authenticate_refused {body : Bytes} {io : AuthIo} {message : Bytes} {status : Nat}
    (hfair : s.Redeems parse body io → ∀ fault, io.fault = some fault → fault.replaced = false)
    (herror : (s.authenticate parse body io).2 = .error message status) :
    (s.authenticate parse body io).1.devices ⊆ s.devices ∧
      (s.authenticate parse body io).1.saved ⊆ s.saved := by
  rcases authenticate_cases parse s body io with ⟨hno, -⟩ | ⟨hredeems, s', d, hno, heq⟩
  · exact ⟨hno.devices, fun d hd => hno.saved ▸ hd⟩
  · rw [heq, persist_eq] at herror ⊢
    cases hcase : io.fault with
    | none =>
      rw [hcase] at herror
      exact AuthAnswer.noConfusion herror
    | some fault =>
      simp only [hfair hredeems fault hcase, Bool.false_eq_true, if_false]
      exact ⟨hno.devices, fun d hd => hno.saved ▸ hd⟩

/-- Only an attempt adds a device. -/
theorem adds_authenticate {e : AuthEntry} (hadds : e.Adds parse) :
    ∃ body io, e.step = .authenticate body io ∧ e.before.Redeems parse body io ∧
      (e.Fair parse → (e.after parse).pair = []) := by
  obtain ⟨s, step, latest, codes⟩ := e
  obtain ⟨d, hd, hadds⟩ := hadds
  cases step with
  | pair token now =>
    rcases hadds with hadds | ⟨hadds, hsaved⟩
    · exact absurd hadds hd
    · exact absurd hadds hsaved
  | authenticate body io =>
    obtain ⟨hredeems, hgone⟩ := authenticate_adds hd hadds
    exact ⟨body, io, rfl, hredeems, fun hfair => hgone (hfair hredeems)⟩
  | request cookies nowMillis revokes fault =>
    simp only [AuthEntry.after] at hadds
    rcases step_request parse s cookies nowMillis revokes fault with heq | ⟨remove, heq⟩
    · rw [heq] at hadds
      rcases hadds with hadds | ⟨hadds, hsaved⟩
      · exact absurd hadds hd
      · exact absurd hadds hsaved
    · rw [heq] at hadds
      rcases hadds with hadds | ⟨hadds, hsaved⟩
      · exact absurd ((revokeDevice_spec s remove fault).1 hadds) hd
      · exact (mem_saved_revokeDevice hadds).elim (absurd · hsaved) (absurd · hd)

theorem firstCookies_begins (cookies : List Bytes) :
    firstCookies cookies <+: deviceCookies cookies := by
  cases cookies with
  | nil => exact List.prefix_rfl
  | cons header headers => exact List.prefix_append _ _

/-- Whom a request is taken for. -/
theorem deviceId_named {cookies : List Bytes} {nowMillis : Int}
    (hfair : ∀ k v, firstCookies cookies = List.replicate k [] ++ [v] →
      s.deviceOf nowMillis v ≠ [] → (deviceCookies cookies).length = 1)
    (h : s.deviceId nowMillis cookies ≠ []) :
    ∃ d ∈ s.devices, d.active nowMillis = true ∧ d.id = s.deviceId nowMillis cookies ∧
      deviceCookies cookies = [d.token] := by
  obtain ⟨k, v, hvalues, hdevice, heq⟩ := deviceId_ne_nil.mp h
  have hone := hfair k v hvalues hdevice
  obtain ⟨hsome, d, hd, hactive, htoken, hid⟩ := exists_of_deviceOf hdevice
  -- The first header has a cookie, so it has the one there is.
  have hbegins : firstCookies cookies <+: deviceCookies cookies := firstCookies_begins cookies
  have hlength : k = 0 := by
    have hle := hbegins.length_le
    rw [hvalues, List.length_append, List.length_replicate, List.length_singleton] at hle
    omega
  have hvalue : deviceCookies cookies = [v] := by
    rw [hvalues, hlength] at hbegins
    exact (hbegins.eq_of_length hone.symm).symm
  exact ⟨d, hd, hactive, by rw [heq, hid], by rw [hvalue, htoken]⟩

/-- A step leaves an attempt's comparisons in the allowance. -/
theorem step_allowance (s : MasterAuth) (step : AuthStep) (w : Int) :
    (if (AuthEntry.mk s step latest codes).compares w then 1 else 0) +
      (s.step parse step).allowance w ≤ s.allowance w := by
  cases step with
  | pair token now => exact (Nat.zero_add _).le
  | authenticate body io =>
    show _ + (s.authenticate parse body io).1.allowance w ≤ _
    rw [allowance_authenticate]
    exact compares_allowance s body io w
  | request cookies nowMillis revokes fault =>
    show 0 + _ ≤ _
    rw [Nat.zero_add]
    rcases step_request parse s cookies nowMillis revokes fault with heq | ⟨remove, heq⟩
    · rw [heq]
    · rw [heq]
      obtain ⟨-, -, -, hwindow, hattempts⟩ := revokeDevice_spec s remove fault
      exact (allowance_congr hwindow hattempts).le

end Step

/-! ### Runs -/

section Runs

variable {parse : Bytes → Option Json} {s : MasterAuth} {latest : Option (Bytes × Int)}
  {codes : Nat} {steps : List AuthStep}

theorem pairOk_of_mem (h : PairOk s latest) :
    ∀ e ∈ entries parse s latest codes steps, PairOk e.before e.latest := by
  induction steps generalizing s latest codes with
  | nil => exact fun e he => absurd he List.not_mem_nil
  | cons step steps ih => exact List.forall_mem_cons.mpr ⟨h, ih (step_pairOk h step)⟩

theorem le_codes : ∀ e ∈ entries parse s latest codes steps, codes ≤ e.codes := by
  induction steps generalizing s latest codes with
  | nil => exact fun e he => absurd he List.not_mem_nil
  | cons step steps ih =>
    refine List.forall_mem_cons.mpr ⟨le_rfl, fun e he => le_trans ?_ (ih e he)⟩
    cases step with
    | pair token now => exact Nat.le_succ codes
    | authenticate body io => exact le_rfl
    | request cookies nowMillis revokes fault => exact le_rfl

/-- Once the code is gone there is none until the next `Pair`. -/
theorem spent (h : s.pair = []) :
    ∀ e ∈ entries parse s latest codes steps, e.codes = codes → e.before.pair = [] := by
  induction steps generalizing s latest codes with
  | nil => exact fun e he => absurd he List.not_mem_nil
  | cons step steps ih =>
    refine List.forall_mem_cons.mpr ⟨fun _ => h, ?_⟩
    cases step with
    | pair token now =>
      intro e he hcodes
      have hle := le_codes e he
      simp only [AuthStep.codes] at hle
      omega
    | authenticate body io =>
      refine ih ?_
      rcases authenticate_pair parse s body io with hnil | ⟨hpair, -⟩
      · exact hnil
      · exact hpair.trans h
    | request cookies nowMillis revokes fault =>
      refine ih ?_
      rcases step_request parse s cookies nowMillis revokes fault with
        heq | ⟨remove, heq⟩
      · rw [heq]
        exact h
      · rw [heq]
        exact (revokeDevice_spec s remove fault).2.1.trans h

/-- A code adds one device at most. -/
theorem entries_once (hfair : ∀ e ∈ entries parse s latest codes steps, e.Fair parse) :
    (entries parse s latest codes steps).Pairwise fun e e' =>
      e.Adds parse → e'.Adds parse → e.codes ≠ e'.codes := by
  induction steps generalizing s latest codes with
  | nil => exact .nil
  | cons step steps ih =>
    rw [entries, List.forall_mem_cons] at hfair
    refine .cons (fun e' he' hadds hadds' heq => ?_) (ih hfair.2)
    obtain ⟨body, io, hstep, -, hgone⟩ := adds_authenticate hadds
    obtain ⟨body', io', -, hredeems', -⟩ := adds_authenticate hadds'
    obtain ⟨-, -, -, hsome, -⟩ := hredeems'
    obtain rfl : step = .authenticate body io := hstep
    exact hsome (spent (hgone hfair.1) e' he' heq.symm)

/-- The comparisons of a window fit the allowance it began with. -/
theorem countP_compares_le (w : Int) :
    (entries parse s latest codes steps).countP (·.compares w) ≤ s.allowance w := by
  induction steps generalizing s latest codes with
  | nil => exact Nat.zero_le _
  | cons step steps ih =>
    rw [entries, List.countP_cons]
    exact (Nat.add_le_add_right ih _).trans
      ((Nat.add_comm _ _).le.trans (step_allowance s step w))

/-- Pairing keeps what it promises in every run whose steps are fair. -/
theorem pairingSafe_of_fair (parse : Bytes → Option Json) (devices saved : List Device)
    (steps : List AuthStep)
    (hfair : ∀ e ∈ entries parse { devices, saved } none 0 steps, e.Fair parse) :
    PairingSafe parse (entries parse { devices, saved } none 0 steps) where
  added e he hadds := by
    obtain ⟨body, io, hstep, hredeems, -⟩ := adds_authenticate hadds
    obtain ⟨-, htime, hcode, hsome, -⟩ := hredeems
    rcases pairOk_of_mem (.inl rfl) e he with hnil | ⟨made, hlatest, hdeadline⟩
    · exact absurd hnil hsome
    · exact ⟨body, io, _, made, hstep, hlatest, hsome, hcode, hdeadline ▸ htime⟩
  once := entries_once hfair
  rate w := by
    refine (countP_compares_le w).trans ?_
    unfold allowance
    split_ifs <;> omega
  refused e he body io message status hstep herror := by
    have hfair := hfair e he
    unfold AuthEntry.Fair at hfair
    unfold AuthEntry.after
    rw [hstep] at hfair ⊢
    exact authenticate_refused hfair herror
  named e he cookies nowMillis revokes fault hstep := by
    have hfair := hfair e he
    unfold AuthEntry.Fair at hfair
    rw [hstep] at hfair
    exact deviceId_named hfair

end Runs

/-! ### A pairing, and two cookies -/

/-- A token as the host makes them. -/
def demoToken : Bytes := lit "00112233445566778899aabbccddeeff"

def demoDevice : Device :=
  { id := lit "0123456789abcdef", token := demoToken, name := lit "Browser", expires := 1 }

def demoCode : Bytes := lit "00112233445566778899aabb"

/-- The body of an attempt with that code. -/
def demoBody : Bytes := lit "\x7b\"code\":\"" ++ demoCode ++ lit "\"\x7d"

def demoParse (body : Bytes) : Option Json :=
  if body = demoBody then some (.obj [(lit "code", .str demoCode)]) else none

theorem pairingSafe_of_fair_run :
    PairingSafe demoParse (entries demoParse { devices := [], saved := [] } none 0
      [.pair demoCode 7,
        .authenticate demoBody
          { now := 8, nowMillis := 0, id := lit "0123456789abcdef", token := demoToken },
        .request [lit "uagent_device=" ++ demoToken] 0 none none]) := by
  refine pairingSafe_of_fair demoParse [] [] _ ?_
  simp only [entries, List.forall_mem_cons]
  refine ⟨trivial, fun _ fault h => absurd h.symm (Option.some_ne_none fault), fun _ _ _ _ => rfl,
    fun e he => absurd he List.not_mem_nil⟩

/-- A request with an empty cookie and the device's. -/
def twoCookies : Bytes := lit "uagent_device=; uagent_device=" ++ demoToken

theorem not_pairingSafe_two_cookies :
    ¬PairingSafe demoParse (entries demoParse { devices := [demoDevice], saved := [demoDevice] }
      none 0 [.request [twoCookies] 0 none none]) := by
  intro hsafe
  obtain ⟨d, -, -, -, hcookies⟩ := hsafe.named _ List.mem_cons_self _ _ _ _ rfl (by decide)
  have htwo : (deviceCookies [twoCookies]).length = 2 := by decide
  rw [hcookies] at htwo
  exact absurd (List.length_singleton.symm.trans htwo) (by decide)

end UAgent
