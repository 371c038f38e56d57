/-
UAgent/Web/MasterAuth.lean

Pairing a browser with the web host (src/web/master_auth.cc): codes, the rate
limit, the devices and the copy of them in devices.json, and which device a
request's cookie names.

All of it happens under the host's lock, so a run is a list of steps in any
order: `Pair`, `Authenticate`, and requests that are let in by their cookie, of
which one that revokes a device changes the list too.  What a step gets from
outside (the clocks, random tokens, how a write ends) comes with the step.
devices.json is given by the devices it lists.
-/
import UAgent.Agent.EditJournal
import UAgent.Core.Json
import UAgent.Core.Strings

namespace UAgent

open Bytes

/-! ### Constants -/

/-- `kAuthenticationRequestBytes` -/
def kAuthenticationRequestBytes : Nat := 4 * 1024

/-- `kDeviceNameChars` -/
def kDeviceNameChars : Nat := 80

/-- `kAuthenticationAttempts` -/
def kAuthenticationAttempts : Nat := 12

/-- `kPairingLifetime`, in nanoseconds. -/
def kPairingLifetime : Int := 5 * 60 * 1000000000

/-- `kAuthenticationWindow`, in nanoseconds. -/
def kAuthenticationWindow : Int := 60 * 1000000000

/-- `kDeviceLifetime`, in milliseconds. -/
def kDeviceLifetime : Int := 30 * 24 * 60 * 60 * 1000

/-- `kWebDeviceLimit` -/
def kWebDeviceLimit : Nat := 16

/-! ### Devices -/

/-- `Device` -/
structure Device where
  id : Bytes
  token : Bytes
  name : Bytes
  expires : Int
deriving DecidableEq

/-- `Device::Active` -/
def Device.active (device : Device) (nowMillis : Int) : Bool := nowMillis < device.expires

/-- `EqualSecret`: all bytes are looked at. -/
def equalSecret (a b : Bytes) : Bool :=
  if a.length ≠ b.length ∨ a = [] then false
  else (a.zip b).foldl (fun difference pair => difference ||| (pair.1 ^^^ pair.2)) 0 = 0

/-- What `mutex_` guards of pairing, and devices.json. -/
structure MasterAuth where
  pair : Bytes := []
  pairDeadline : Int := 0
  authWindow : Int := 0
  authAttempts : Nat := 0
  devices : List Device := []
  saved : List Device := []

/-- `Error` and `Reply` of `Authenticate`. -/
inductive AuthAnswer where
  | error (message : Bytes) (status : Nat)
  | paired (device setCookie : Bytes)
deriving DecidableEq

/-- What `Authenticate` gets from outside. -/
structure AuthIo where
  now : Int
  nowMillis : Int
  id : Bytes
  token : Bytes
  fault : Option WriteFault := none
  /-- Whether the expected origin is an https one. -/
  secure : Bool := false

namespace MasterAuth

/-- `Pair`; the token is what `RandomToken(12)` gives. -/
def pairWith (s : MasterAuth) (token : Bytes) (now : Int) : MasterAuth :=
  { s with pair := token, pairDeadline := now + kPairingLifetime }

/-- `SaveDevices`: the file is replaced, or not, and the write reports it, or
reports a directory that could not be synced. -/
def saveDevices (s : MasterAuth) (fault : Option WriteFault) : MasterAuth × Bool :=
  match fault with
  | none => ({ s with saved := s.devices }, true)
  | some fault => (if fault.replaced then { s with saved := s.devices } else s, false)

/-! ### The cookie of a request -/

/-- `SplitPathList`, given the entry being read. -/
def splitPathList (separator : UInt8) (entry : Bytes) : Bytes → List Bytes
  | [] => [entry]
  | c :: s =>
    if c = separator then entry :: splitPathList separator [] s
    else splitPathList separator (entry ++ [c]) s

/-- The value of a `uagent_device` cookie. -/
def deviceCookie (entry : Bytes) : Option Bytes :=
  let part := trim entry
  if lit "uagent_device=" <+: part then some (part.drop 14) else none

/-- The loop of `DeviceId` over the entries; none where it gives up. -/
def credential (token : Bytes) : List Bytes → Option Bytes
  | [] => some token
  | entry :: entries =>
    match deviceCookie entry with
    | none => credential token entries
    | some value => if token ≠ [] then none else credential value entries

/-- The device a token is of. -/
def deviceOf (s : MasterAuth) (nowMillis : Int) (token : Bytes) : Bytes :=
  ((s.devices.find? fun device => device.active nowMillis && equalSecret token device.token).map
    (·.id)).getD []

/-- `DeviceId`, by the request's Cookie headers, of which `get_header_value`
gives the first. -/
def deviceId (s : MasterAuth) (nowMillis : Int) (cookies : List Bytes) : Bytes :=
  match credential [] (splitPathList (ch ';') [] (cookies.head?.getD [])) with
  | none => []
  | some token => s.deviceOf nowMillis token

/-! ### Authenticating -/

/-- The beginning of `Authenticate`: the size and the rate. -/
def checkRate (s : MasterAuth) (body : Bytes) (now : Int) : MasterAuth × Option AuthAnswer :=
  if kAuthenticationRequestBytes < body.length then
    (s, some (.error (lit "authentication request too large") 413))
  else
    let s :=
      if kAuthenticationWindow < now - s.authWindow then
        { s with authWindow := now, authAttempts := 0 }
      else s
    let s := { s with authAttempts := s.authAttempts + 1 }
    if kAuthenticationAttempts < s.authAttempts then
      (s, some (.error (lit "pairing rate limit; retry in a minute") 429))
    else (s, none)

/-- Its middle: the code, the limit, and the device that would be added. -/
def redeem (s : MasterAuth) (input : Json) (io : AuthIo) :
    MasterAuth × Except AuthAnswer Device :=
  if s.pairDeadline < io.now || !equalSecret (jsonValueStr input (lit "code") []) s.pair then
    (s, .error (.error (lit "invalid or expired pairing code") 403))
  else
    let s := { s with devices := s.devices.filter (·.active io.nowMillis) }
    if kWebDeviceLimit ≤ s.devices.length then
      (s, .error (.error (lit "device limit reached; revoke a device first") 409))
    else
      let device : Device :=
        { id := io.id
          token := io.token
          name := utf8Prefix (jsonValueStr input (lit "name") (lit "Browser")) kDeviceNameChars
          expires := io.nowMillis + kDeviceLifetime }
      if device.id = [] ∨ device.token = [] then
        (s, .error (.error (lit "randomness unavailable") 500))
      else (s, .ok device)

/-- The cookie a device gets. -/
def deviceSetCookie (device : Device) (secure : Bool) : Bytes :=
  lit "uagent_device=" ++ device.token ++ lit "; Path=/; HttpOnly; SameSite=Strict; Max-Age=" ++
    Json.decimal (kDeviceLifetime / 1000).toNat ++ if secure then lit "; Secure" else []

/-- Its end: the device is kept when it could be saved. -/
def persist (s : MasterAuth) (device : Device) (io : AuthIo) : MasterAuth × AuthAnswer :=
  let (s, written) := { s with devices := s.devices ++ [device] }.saveDevices io.fault
  if !written then
    ({ s with devices := s.devices.dropLast }, .error (lit "cannot persist device") 500)
  else ({ s with pair := [] }, .paired device.id (deviceSetCookie device io.secure))

variable (parse : Bytes → Option Json)

/-- `Authenticate`; `parse` is `json::parse` without exceptions. -/
def authenticate (s : MasterAuth) (body : Bytes) (io : AuthIo) : MasterAuth × AuthAnswer :=
  match s.checkRate body io.now with
  | (s, some answer) => (s, answer)
  | (s, none) =>
    match s.redeem ((parse body).getD .null) io with
    | (s, .error answer) => (s, answer)
    | (s, .ok device) => s.persist device io

/-- `RevokeDevice` -/
def revokeDevice (s : MasterAuth) (remove : Bytes) (fault : Option WriteFault) : MasterAuth :=
  let (next, written) := { s with devices := s.devices.filter (·.id ≠ remove) }.saveDevices fault
  if written then next else { next with devices := s.devices }

/-! ### Steps -/

/-- What an authenticated request may do to the devices. -/
inductive Revocation where
  | logout
  | device (id : Bytes)

end MasterAuth

/-- One step of the host. -/
inductive AuthStep where
  | pair (token : Bytes) (now : Int)
  | authenticate (body : Bytes) (io : AuthIo)
  /-- A request that is let in when `DeviceId` names a device. -/
  | request (cookies : List Bytes) (nowMillis : Int) (revokes : Option MasterAuth.Revocation)
    (fault : Option WriteFault)

namespace MasterAuth

def step (parse : Bytes → Option Json) (s : MasterAuth) : AuthStep → MasterAuth
  | .pair token now => s.pairWith token now
  | .authenticate body io => (s.authenticate parse body io).1
  | .request cookies nowMillis revokes fault =>
    let device := s.deviceId nowMillis cookies
    if device = [] then s
    else
      match revokes with
      | none => s
      | some .logout => s.revokeDevice device fault
      | some (.device remove) => s.revokeDevice remove fault

end MasterAuth

end UAgent
