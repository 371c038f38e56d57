/-
UAgent/Web/Pairing.lean

What pairing promises (src/web/master_auth.cc), over every run of codes made,
attempts to authenticate and requests let in.

One attempt is taken apart once (`authenticate_cases`); what adds a device, and
what it leaves on disk, is read off that.  Two of the promises do not hold of
every step.  A first cookie that is empty counts as none seen yet, and only the
first Cookie header is looked at, so a token behind it is taken; and an attempt
whose write replaced the file without being able to sync its folder answers
with an error over a device that is on disk.  `pairingSafe_iff` says that
nothing else goes wrong.
-/
import UAgent.Web.MasterAuth

namespace UAgent

open Bytes

/-! ### Secrets -/

theorem foldl_or_eq_zero (pairs : List (UInt8 × UInt8)) (difference : UInt8) :
    pairs.foldl (fun difference pair => difference ||| (pair.1 ^^^ pair.2)) difference = 0 ↔
      difference = 0 ∧ ∀ pair ∈ pairs, pair.1 = pair.2 := by
  induction pairs generalizing difference with
  | nil => simp
  | cons pair pairs ih =>
    rw [List.foldl_cons, ih, List.forall_mem_cons, UInt8.or_eq_zero_iff, UInt8.xor_eq_zero_iff,
      and_assoc]

theorem equalSecret_iff {a b : Bytes} : equalSecret a b = true ↔ a = b ∧ a ≠ [] := by
  unfold equalSecret
  split_ifs with h
  · refine ⟨False.elim, ?_⟩
    rintro ⟨rfl, hne⟩
    exact absurd rfl (h.resolve_right hne)
  · rw [not_or, not_not] at h
    obtain ⟨hlength, hne⟩ := h
    rw [decide_eq_true_iff, foldl_or_eq_zero]
    constructor
    · rintro ⟨-, hall⟩
      refine ⟨List.ext_getElem hlength fun i ha hb => ?_, hne⟩
      exact hall (a[i], b[i]) (List.mem_iff_getElem.mpr
        ⟨i, by rw [List.length_zip]; omega, by rw [List.getElem_zip]⟩)
    · rintro ⟨rfl, -⟩
      refine ⟨rfl, fun pair hpair => ?_⟩
      obtain ⟨i, hi, rfl⟩ := List.mem_iff_getElem.mp hpair
      rw [List.getElem_zip]

namespace MasterAuth

/-! ### The cookie of a request -/

/-- The values of the `uagent_device` cookies of one Cookie header. -/
def cookieValues (header : Bytes) : List Bytes :=
  (splitPathList (ch ';') [] header).filterMap deviceCookie

/-- Those of a request. -/
def deviceCookies (cookies : List Bytes) : List Bytes := cookies.flatMap cookieValues

/-- Those `DeviceId` looks at. -/
def firstCookies (cookies : List Bytes) : List Bytes := cookieValues (cookies.head?.getD [])

theorem credential_of_token {token : Bytes} (h : token ≠ []) (entries : List Bytes) (v : Bytes) :
    credential token entries = some v ↔ entries.filterMap deviceCookie = [] ∧ v = token := by
  induction entries with
  | nil =>
    rw [credential, Option.some.injEq]
    exact ⟨fun heq => ⟨rfl, heq.symm⟩, fun heq => heq.2.symm⟩
  | cons entry entries ih =>
    rw [credential]
    cases hcookie : deviceCookie entry with
    | none => rw [List.filterMap_cons_none hcookie]; exact ih
    | some value =>
      rw [List.filterMap_cons_some hcookie]
      simp [h]

/-- What the loop ends with: all cookies before the last are empty. -/
theorem credential_eq_some {v : Bytes} (hv : v ≠ []) (entries : List Bytes) :
    credential [] entries = some v ↔
      ∃ k, entries.filterMap deviceCookie = List.replicate k [] ++ [v] := by
  induction entries with
  | nil =>
    rw [credential, Option.some.injEq]
    refine ⟨fun h => absurd h.symm hv, ?_⟩
    rintro ⟨k, h⟩
    simp at h
  | cons entry entries ih =>
    rw [credential]
    cases hcookie : deviceCookie entry with
    | none => rw [List.filterMap_cons_none hcookie]; exact ih
    | some value =>
      rw [List.filterMap_cons_some hcookie]
      simp only [ne_eq, not_true_eq_false, if_false]
      rcases eq_or_ne value [] with rfl | hvalue
      · rw [ih]
        constructor
        · rintro ⟨k, h⟩
          exact ⟨k + 1, by rw [h]; rfl⟩
        · rintro ⟨k, h⟩
          cases k with
          | zero => exact absurd (List.cons.inj h).1.symm hv
          | succ k => exact ⟨k, (List.cons.inj h).2⟩
      · rw [credential_of_token hvalue]
        constructor
        · rintro ⟨hnil, rfl⟩
          exact ⟨0, by rw [hnil]; rfl⟩
        · rintro ⟨k, h⟩
          cases k with
          | zero => exact ⟨(List.cons.inj h).2, (List.cons.inj h).1.symm⟩
          | succ k => exact absurd (List.cons.inj h).1 hvalue

variable {s : MasterAuth} {nowMillis : Int} {cookies : List Bytes}

/-- A token that is of a device is its token. -/
theorem exists_of_deviceOf {token : Bytes} (h : s.deviceOf nowMillis token ≠ []) :
    token ≠ [] ∧ ∃ d ∈ s.devices, d.active nowMillis = true ∧ d.token = token ∧
      d.id = s.deviceOf nowMillis token := by
  unfold deviceOf at h ⊢
  rcases hfind : s.devices.find? fun device =>
      device.active nowMillis && equalSecret token device.token with - | d
  · rw [hfind] at h
    exact absurd rfl h
  · have hd := List.find?_some hfind
    rw [Bool.and_eq_true, equalSecret_iff] at hd
    obtain ⟨hactive, htoken, hsome⟩ := hd
    refine ⟨hsome, d, List.mem_of_find?_eq_some hfind, hactive, htoken.symm, ?_⟩
    rw [hfind]
    rfl

/-- When a request is let in. -/
theorem deviceId_ne_nil :
    s.deviceId nowMillis cookies ≠ [] ↔ ∃ k v, firstCookies cookies = List.replicate k [] ++ [v] ∧
      s.deviceOf nowMillis v ≠ [] ∧ s.deviceId nowMillis cookies = s.deviceOf nowMillis v := by
  unfold deviceId firstCookies cookieValues
  constructor
  · intro h
    rcases hcredential : credential [] (splitPathList (ch ';') [] (cookies.head?.getD [])) with
      - | v
    · rw [hcredential] at h
      exact absurd rfl h
    · rw [hcredential] at h
      obtain ⟨k, hvalues⟩ := (credential_eq_some (exists_of_deviceOf h).1 _).mp hcredential
      exact ⟨k, v, hvalues, h, rfl⟩
  · rintro ⟨k, v, -, h, heq⟩
    rwa [heq]

/-! ### One attempt -/

section Attempt

variable {parse : Bytes → Option Json} {s' : MasterAuth} {body : Bytes} {io : AuthIo} {input : Json}
  {d : Device}

/-- Whether an attempt comes as far as saving a device: it is let through, it
carries the code in time, and there is room and randomness for a device. -/
def Redeems (parse : Bytes → Option Json) (s : MasterAuth) (body : Bytes) (io : AuthIo) : Prop :=
  (s.checkRate body io.now).2 = none ∧ io.now ≤ s.pairDeadline ∧
    jsonValueStr ((parse body).getD .null) (lit "code") [] = s.pair ∧ s.pair ≠ [] ∧
      (s.devices.filter (·.active io.nowMillis)).length < kWebDeviceLimit ∧
        io.id ≠ [] ∧ io.token ≠ []

/-- Nothing was added, on disk nothing changed, and the code is the same. -/
structure NoMore (s s' : MasterAuth) : Prop where
  devices : s'.devices ⊆ s.devices
  saved : s'.saved = s.saved
  pair : s'.pair = s.pair
  pairDeadline : s'.pairDeadline = s.pairDeadline

theorem NoMore.trans {s'' : MasterAuth} (h : NoMore s s') (h' : NoMore s' s'') : NoMore s s'' :=
  ⟨List.Subset.trans h'.devices h.devices, h'.saved.trans h.saved, h'.pair.trans h.pair,
    h'.pairDeadline.trans h.pairDeadline⟩

theorem checkRate_noMore (s : MasterAuth) (body : Bytes) (now : Int) :
    NoMore s (s.checkRate body now).1 := by
  unfold checkRate
  dsimp only
  split_ifs <;> exact ⟨List.Subset.refl _, rfl, rfl, rfl⟩

theorem checkRate_answer {answer : AuthAnswer} {now : Int}
    (h : (s.checkRate body now).2 = some answer) :
    ∃ message status, answer = .error message status := by
  unfold checkRate at h
  dsimp only at h
  split_ifs at h <;> exact ⟨_, _, (Option.some.inj h).symm⟩

theorem redeem_noMore (s : MasterAuth) (input : Json) (io : AuthIo) :
    NoMore s (s.redeem input io).1 := by
  unfold redeem
  dsimp only
  split_ifs
  · exact ⟨List.Subset.refl _, rfl, rfl, rfl⟩
  · exact ⟨List.filter_subset_self _, rfl, rfl, rfl⟩
  · exact ⟨List.filter_subset_self _, rfl, rfl, rfl⟩
  · exact ⟨List.filter_subset_self _, rfl, rfl, rfl⟩

theorem redeem_error {answer : AuthAnswer} (h : (s.redeem input io).2 = .error answer) :
    ∃ message status, answer = .error message status := by
  unfold redeem at h
  dsimp only at h
  split_ifs at h
  · exact ⟨_, _, (Except.error.inj h).symm⟩
  · exact ⟨_, _, (Except.error.inj h).symm⟩
  · exact ⟨_, _, (Except.error.inj h).symm⟩

/-- Only the code itself is redeemed, and only in time. -/
theorem redeem_ok (h : (s.redeem input io).2 = .ok d) :
    (io.now ≤ s.pairDeadline ∧ jsonValueStr input (lit "code") [] = s.pair ∧ s.pair ≠ []) ∧
      (s.devices.filter (·.active io.nowMillis)).length < kWebDeviceLimit ∧
        io.id ≠ [] ∧ io.token ≠ [] := by
  unfold redeem at h
  dsimp only at h
  split_ifs at h with hcode hroom hrandom
  rw [Bool.or_eq_true, not_or, decide_eq_true_iff, Bool.not_eq_true', Bool.not_eq_false,
    equalSecret_iff, not_lt] at hcode
  obtain ⟨htime, heq, hsome⟩ := hcode
  exact ⟨⟨htime, heq, heq ▸ hsome⟩, not_le.mp hroom, not_or.mp hrandom⟩

/-- The beginning of an attempt leaves the devices and the code alone. -/
theorem checkRate_same (s : MasterAuth) (body : Bytes) (now : Int) :
    (s.checkRate body now).1.devices = s.devices := by
  unfold checkRate
  dsimp only
  split_ifs <;> rfl

/-- An attempt is refused, or comes as far as saving a device for the code. -/
theorem authenticate_cases (parse : Bytes → Option Json) (s : MasterAuth) (body : Bytes)
    (io : AuthIo) :
    (NoMore s (s.authenticate parse body io).1 ∧
        ∃ message status, (s.authenticate parse body io).2 = .error message status) ∨
      s.Redeems parse body io ∧
        ∃ s' d, NoMore s s' ∧ s.authenticate parse body io = s'.persist d io := by
  have hrate := checkRate_noMore s body io.now
  have hdevices := checkRate_same s body io.now
  unfold authenticate Redeems
  rcases hcase : s.checkRate body io.now with ⟨s₁, _ | answer⟩
  · rw [hcase] at hrate hdevices
    have hredeem := redeem_noMore s₁ ((parse body).getD .null) io
    dsimp only
    rcases hcase' : s₁.redeem ((parse body).getD .null) io with ⟨s₂, answer | d⟩
    · rw [hcase'] at hredeem
      exact .inl ⟨hrate.trans hredeem, redeem_error (congrArg Prod.snd hcase')⟩
    · rw [hcase'] at hredeem
      obtain ⟨hcode, hroom⟩ := redeem_ok (congrArg Prod.snd hcase')
      rw [hrate.pairDeadline, hrate.pair] at hcode
      rw [hdevices] at hroom
      exact .inr ⟨⟨rfl, hcode.1, hcode.2.1, hcode.2.2, hroom⟩, s₂, d, hrate.trans hredeem, rfl⟩
  · rw [hcase] at hrate
    exact .inl ⟨hrate, checkRate_answer (congrArg Prod.snd hcase)⟩

/-- How saving ends. -/
theorem persist_eq (s : MasterAuth) (d : Device) (io : AuthIo) :
    s.persist d io =
      match io.fault with
      | none =>
        ({ s with devices := s.devices ++ [d], saved := s.devices ++ [d], pair := [] },
          .paired d.id (deviceSetCookie d io.secure))
      | some fault =>
        (if fault.replaced then { s with saved := s.devices ++ [d] } else s,
          .error (lit "cannot persist device") 500) := by
  unfold persist saveDevices
  cases io.fault with
  | none => rfl
  | some fault => cases hreplaced : fault.replaced <;> simp [hreplaced]

/-- Revoking adds nothing. -/
theorem revokeDevice_spec (s : MasterAuth) (remove : Bytes) (fault : Option WriteFault) :
    (s.revokeDevice remove fault).devices ⊆ s.devices ∧
      (s.revokeDevice remove fault).pair = s.pair ∧
        (s.revokeDevice remove fault).pairDeadline = s.pairDeadline ∧
          (s.revokeDevice remove fault).authWindow = s.authWindow ∧
            (s.revokeDevice remove fault).authAttempts = s.authAttempts := by
  unfold revokeDevice saveDevices
  cases fault with
  | none => exact ⟨List.filter_subset_self _, rfl, rfl, rfl, rfl⟩
  | some fault =>
    dsimp only
    cases fault.replaced <;> exact ⟨List.Subset.refl _, rfl, rfl, rfl, rfl⟩

/-- What it leaves on disk was there, or in memory. -/
theorem mem_saved_revokeDevice {remove : Bytes} {fault : Option WriteFault}
    (h : d ∈ (s.revokeDevice remove fault).saved) : d ∈ s.saved ∨ d ∈ s.devices := by
  unfold revokeDevice saveDevices at h
  cases fault with
  | none => exact .inr (List.mem_of_mem_filter h)
  | some fault =>
    dsimp only at h
    cases hreplaced : fault.replaced with
    | false =>
      rw [hreplaced] at h
      exact .inl h
    | true =>
      rw [hreplaced] at h
      exact .inr (List.mem_of_mem_filter h)

/-! ### The rate -/

/-- How many attempts of the window that began at `w` may still compare a
code. -/
def allowance (s : MasterAuth) (w : Int) : Nat :=
  if w = s.authWindow then kAuthenticationAttempts - s.authAttempts
  else if s.authWindow < w then kAuthenticationAttempts
  else 0

/-- Whether an attempt gets as far as comparing its code, in that window. -/
def compares (s : MasterAuth) (body : Bytes) (io : AuthIo) (w : Int) : Bool :=
  (s.checkRate body io.now).2 = none && (s.checkRate body io.now).1.authWindow = w

theorem compares_allowance (s : MasterAuth) (body : Bytes) (io : AuthIo) (w : Int) :
    (if s.compares body io w then 1 else 0) + (s.checkRate body io.now).1.allowance w ≤
      s.allowance w := by
  unfold compares allowance checkRate kAuthenticationWindow kAuthenticationAttempts
  dsimp only
  split_ifs <;> simp_all <;> omega

/-- Behind the beginning of an attempt the rate is not touched. -/
theorem redeem_rate (s : MasterAuth) (input : Json) (io : AuthIo) :
    (s.redeem input io).1.authWindow = s.authWindow ∧
      (s.redeem input io).1.authAttempts = s.authAttempts := by
  unfold redeem
  dsimp only
  split_ifs <;> exact ⟨rfl, rfl⟩

theorem persist_rate (s : MasterAuth) (d : Device) (io : AuthIo) :
    (s.persist d io).1.authWindow = s.authWindow ∧
      (s.persist d io).1.authAttempts = s.authAttempts := by
  unfold persist saveDevices
  cases io.fault with
  | none => exact ⟨rfl, rfl⟩
  | some fault => cases hreplaced : fault.replaced <;> simp [hreplaced]

theorem allowance_congr {w : Int} (hwindow : s'.authWindow = s.authWindow)
    (hattempts : s'.authAttempts = s.authAttempts) : s'.allowance w = s.allowance w := by
  unfold allowance
  rw [hwindow, hattempts]

theorem allowance_authenticate (s : MasterAuth) (body : Bytes) (io : AuthIo) (w : Int) :
    (s.authenticate parse body io).1.allowance w = (s.checkRate body io.now).1.allowance w := by
  unfold authenticate
  rcases s.checkRate body io.now with ⟨s₁, _ | answer⟩
  · dsimp only
    obtain ⟨hwindow, hattempts⟩ := redeem_rate s₁ ((parse body).getD .null) io
    rcases hcase : s₁.redeem ((parse body).getD .null) io with ⟨s₂, answer | d⟩
    · rw [hcase] at hwindow hattempts
      exact allowance_congr hwindow hattempts
    · rw [hcase] at hwindow hattempts
      obtain ⟨hwindow', hattempts'⟩ := persist_rate s₂ d io
      exact allowance_congr (hwindow'.trans hwindow) (hattempts'.trans hattempts)
  · rfl

end Attempt

end MasterAuth

end UAgent
