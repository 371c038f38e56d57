/-
UAgent/Agent/RootPrompt.lean

Answering a root command's sudo prompt (`AnswerRootPrompt` and the reads of
`ActivitySupervisor::IoLoop`, src/agent/activity_supervisor.cc).  The prompt is
a nonce that is cut out of the output wherever a read completes it; the first
one is answered with the password, a later one wipes the password.

A password that the command prints is shown as `***`, so the output is not the
command's to the byte.  `root_prompt_answered` says what it is: the texts of
the reads, laid end to end, are the stream with its first prompt taken out, and
each is shown with the password blanked, as long as the blanking spares the
beginning of a prompt that is held back.
-/
import UAgent.Base.Bytes
import UAgent.Base.HeldTail

namespace UAgent

open Bytes

/-! ### The session -/

/-- What an `ActivitySession` keeps for a root command, and what has been
written to the command's input. -/
structure RootSession where
  nonce : Bytes
  secret : Option Bytes
  tty : Bool
  inputOpen : Bool := true
  nonceCarry : Bytes := []
  prompts : Nat := 0
  secretRejected : Bool := false
  typed : List Bytes := []
deriving DecidableEq

def kRedactedSecretMin : Nat := 4

/-- What blanks a password. -/
def kRedacted : Bytes := lit "***"

namespace RootSession

/-- `WriteAll(session.input_fd.Get(), bytes)`; a closed input takes nothing. -/
def writeAll (s : RootSession) (bytes : Bytes) : RootSession :=
  if s.inputOpen then { s with typed := s.typed ++ [bytes] } else s

/-- The first prompt is answered: the password and a line end. -/
def answer (s : RootSession) (secret : Bytes) : RootSession :=
  let s := (s.writeAll secret).writeAll (lit "\n")
  -- Without a terminal the command's stdin ends here.
  if s.tty then s else { s with inputOpen := false }

/-- Any other prompt wipes the password, and a terminal is sent a `^C`. -/
def reject (s : RootSession) : RootSession :=
  let s := { s with secret := s.secret.map fun _ => [] }
  let s := if s.tty then s.writeAll [3] else s
  { s with secretRejected := true }

/-- A prompt was found. -/
def promptSeen (s : RootSession) : RootSession :=
  let s := { s with prompts := s.prompts + 1 }
  match s.secret with
  | some secret => if s.prompts = 1 then s.answer secret else s.reject
  | none => s.reject

/-- The loop over the prompts in a read: each is erased, and the search goes on
from where it stood.  Every turn erases at least one byte of `rest`. -/
def cutPrompts : Nat → RootSession → Bytes → Bytes → RootSession × Bytes
  | 0, s, before, rest => (s, before ++ rest)
  | turns + 1, s, before, rest =>
    match find s.nonce rest with
    | none => (s, before ++ rest)
    | some at_ =>
      cutPrompts turns s.promptSeen (before ++ rest.take at_) (rest.drop (at_ + s.nonce.length))

/-- The loop over the passwords in a text: each is replaced, and the search goes
on from where it stood.  Every turn makes the text shorter. -/
def redactFrom (secret : Bytes) : Nat → Bytes → Bytes → Bytes
  | 0, before, rest => before ++ rest
  | turns + 1, before, rest =>
    match find secret rest with
    | none => before ++ rest
    | some at_ =>
      redactFrom secret turns (before ++ rest.take at_) (kRedacted ++ rest.drop (at_ + secret.length))

/-- A short password would blank ordinary words, so it is left. -/
def redact (s : RootSession) (text : Bytes) : Bytes :=
  match s.secret with
  | some secret =>
    if kRedactedSecretMin ≤ secret.length then redactFrom secret text.length [] text else text
  | none => text

/-- How many bytes at the end of `text` may begin the first prompt. -/
def heldLength (s : RootSession) (text : Bytes) : Nat :=
  heldTail s.nonce text (min text.length (if s.prompts = 0 then s.nonce.length - 1 else 0))

/-- The end of `AnswerRootPrompt`: such a tail is held back. -/
def hold (s : RootSession) (text : Bytes) : RootSession × Bytes :=
  ({ s with nonceCarry := text.drop (text.length - s.heldLength text) },
    text.take (text.length - s.heldLength text))

/-- The text of a read, with what was held back, and without its prompts. -/
def readText (s : RootSession) (chunk : Bytes) : RootSession × Bytes :=
  cutPrompts (s.nonceCarry ++ chunk).length { s with nonceCarry := [] } [] (s.nonceCarry ++ chunk)

def answerRootPrompt (s : RootSession) (chunk : Bytes) : RootSession × Bytes :=
  let (s, text) := s.readText chunk
  s.hold (s.redact text)

/-- A read of `IoLoop`; only a root command has a nonce. -/
def ioRead (s : RootSession) (chunk : Bytes) : RootSession × Bytes :=
  if s.nonce = [] then (s, chunk) else s.answerRootPrompt chunk

/-- The reads, one after another, and what each of them shows. -/
def ioLoop (s : RootSession) : List Bytes → RootSession × List Bytes
  | [] => (s, [])
  | chunk :: reads =>
    let (s, shown) := s.ioRead chunk
    let (s, later) := s.ioLoop reads
    (s, shown :: later)

/-- All that is shown; at the end of the output a tail held back was output
after all. -/
def shownAll (s : RootSession) (reads : List Bytes) : Bytes :=
  (s.ioLoop reads).2.flatten ++ (s.ioLoop reads).1.nonceCarry

/-! ### The loops run to their ends -/

section Loops

variable {s : RootSession} {before rest : Bytes}

/-- Writing and wiping leave the prompt and the count alone. -/
theorem writeAll_fields (s : RootSession) (bytes : Bytes) :
    (s.writeAll bytes).nonce = s.nonce ∧ (s.writeAll bytes).prompts = s.prompts ∧
      (s.writeAll bytes).nonceCarry = s.nonceCarry := by
  unfold writeAll
  split_ifs <;> exact ⟨rfl, rfl, rfl⟩

theorem promptSeen_fields (s : RootSession) :
    s.promptSeen.nonce = s.nonce ∧ s.promptSeen.prompts = s.prompts + 1 ∧
      s.promptSeen.nonceCarry = s.nonceCarry := by
  simp only [promptSeen]
  split <;> (try split_ifs) <;> simp only [answer, reject] <;> split_ifs <;> simp [writeAll_fields]

theorem iterate_promptSeen_fields (n : Nat) (s : RootSession) :
    (promptSeen^[n] s).nonce = s.nonce ∧ (promptSeen^[n] s).prompts = s.prompts + n ∧
      (promptSeen^[n] s).nonceCarry = s.nonceCarry := by
  induction n generalizing s with
  | zero => exact ⟨rfl, rfl, rfl⟩
  | succ n ih =>
    obtain ⟨hnonce, hprompts, hcarry⟩ := ih s.promptSeen
    obtain ⟨h₁, h₂, h₃⟩ := s.promptSeen_fields
    rw [Function.iterate_succ_apply]
    exact ⟨hnonce.trans h₁, by rw [hprompts, h₂]; omega, hcarry.trans h₃⟩

/-- The text falls into pieces between the prompts, and each prompt is seen. -/
theorem cutPrompts_spec (hnonce : s.nonce ≠ []) {turns : Nat} (hturns : rest.length ≤ turns) :
    ∃ pieces, Cuts s.nonce rest pieces ∧
      cutPrompts turns s before rest =
        (promptSeen^[pieces.length - 1] s, before ++ pieces.flatten) := by
  induction turns generalizing s before rest with
  | zero =>
    obtain rfl : rest = [] := List.length_eq_zero_iff.mp (Nat.le_zero.mp hturns)
    exact ⟨[[]], .last (by simpa using hnonce), by simp [cutPrompts]⟩
  | succ turns ih =>
    cases hfind : find s.nonce rest with
    | none => exact ⟨[rest], .last (find_eq_none_iff.mp hfind), by simp [cutPrompts, hfind]⟩
    | some at_ =>
      obtain ⟨a, b, rfl, rfl⟩ := exists_eq_append_of_find hfind
      have hshort : b.length ≤ turns := by
        have := List.length_pos_iff.mpr hnonce
        simp only [List.length_append] at hturns
        omega
      obtain ⟨hn, -, -⟩ := s.promptSeen_fields
      obtain ⟨pieces, hcuts, heq⟩ := @ih s.promptSeen (before ++ a) b (hn ▸ hnonce) hshort
      rw [hn] at hcuts
      refine ⟨a :: pieces, .cut hfind hcuts, ?_⟩
      have hdrop : (a ++ (s.nonce ++ b)).drop (a.length + s.nonce.length) = b := by
        rw [← List.append_assoc, ← List.length_append, List.drop_left]
      have hcount : (a :: pieces).length - 1 = pieces.length - 1 + 1 := by
        have := List.length_pos_iff.mpr hcuts.ne_nil
        simp only [List.length_cons]
        omega
      simp only [cutPrompts, hfind, hdrop, List.take_left, heq, hcount, Function.iterate_succ_apply,
        List.flatten_cons, List.append_assoc]

/-- A text in which each password is blanked that a search finds, from the left
and with the blanks it has made. -/
inductive Blanked (secret : Bytes) : Bytes → Bytes → Prop
  | done {text : Bytes} (h : find secret text = none) : Blanked secret text text
  | blank {a b shown : Bytes} (h : find secret (a ++ (secret ++ b)) = some a.length)
      (rest : Blanked secret (kRedacted ++ b) shown) : Blanked secret (a ++ (secret ++ b)) (a ++ shown)

/-- The loop ends with every password blanked. -/
theorem redactFrom_of_blanked {secret shown : Bytes} (hsecret : kRedactedSecretMin ≤ secret.length)
    (h : Blanked secret rest shown) {turns : Nat} (hturns : rest.length ≤ turns) :
    redactFrom secret turns before rest = before ++ shown := by
  induction h generalizing turns before with
  | done hnone =>
    cases turns with
    | zero => rfl
    | succ turns => simp [redactFrom, hnone]
  | @blank a b shown hfind _ ih =>
    have hshort : kRedacted.length = 3 := by decide
    simp only [List.length_append, kRedactedSecretMin] at hturns hsecret
    cases turns with
    | zero => omega
    | succ turns =>
      have hdrop : (a ++ (secret ++ b)).drop (a.length + secret.length) = b := by
        rw [← List.append_assoc, ← List.length_append, List.drop_left]
      have hlater : (kRedacted ++ b).length ≤ turns := by
        rw [List.length_append]
        omega
      simp only [redactFrom, hfind, hdrop, List.take_left, ih hlater, List.append_assoc]

end Loops

/-! ### What is seen of the prompts -/

/-- What the command's input gets when `n` prompts are seen: the password once,
for the first, and only `^C` after it. -/
def answers (s : RootSession) : Nat → List Bytes
  | 0 => []
  | n + 1 =>
    if s.inputOpen then
      match s.secret with
      | some secret => secret :: lit "\n" :: if s.tty then List.replicate n [3] else []
      | none => if s.tty then List.replicate (n + 1) [3] else []
    else []

theorem answers_succ (s : RootSession) (n : Nat) :
    s.answers (n + 2) =
      if s.tty = true ∧ s.inputOpen = true then s.answers (n + 1) ++ [[3]] else s.answers (n + 1) := by
  cases htty : s.tty <;> cases hopen : s.inputOpen <;> cases hsecret : s.secret <;>
    simp [answers, htty, hopen, hsecret, List.replicate_succ']

/-- What the first prompt does. -/
theorem promptSeen_first (s : RootSession) (hprompts : s.prompts = 0) (htyped : s.typed = []) :
    s.promptSeen.typed = s.answers 1 ∧ s.promptSeen.secret = s.secret ∧ s.promptSeen.tty = s.tty ∧
      (s.tty = true → s.promptSeen.inputOpen = s.inputOpen) := by
  obtain ⟨nonce, secret, tty, inputOpen, nonceCarry, prompts, secretRejected, typed⟩ := s
  obtain rfl : prompts = 0 := hprompts
  obtain rfl : typed = [] := htyped
  cases secret <;> cases tty <;> cases inputOpen <;>
    simp [promptSeen, answer, reject, writeAll, answers]

/-- What any later one does. -/
theorem promptSeen_later (s : RootSession) (hprompts : 0 < s.prompts) :
    s.promptSeen.typed = (if s.tty = true ∧ s.inputOpen = true then s.typed ++ [[3]] else s.typed) ∧
      s.promptSeen.secret = s.secret.map (fun _ => []) ∧ s.promptSeen.tty = s.tty ∧
      s.promptSeen.inputOpen = s.inputOpen := by
  obtain ⟨nonce, secret, tty, inputOpen, nonceCarry, prompts, secretRejected, typed⟩ := s
  have hne : prompts ≠ 0 := hprompts.ne'
  cases secret <;> cases tty <;> cases inputOpen <;>
    simp [promptSeen, reject, writeAll, hne]

theorem iterate_promptSeen (s : RootSession) (hprompts : s.prompts = 0) (htyped : s.typed = [])
    (n : Nat) :
    (promptSeen^[n] s).typed = s.answers n ∧
      (promptSeen^[n] s).secret = (if n ≤ 1 then s.secret else s.secret.map fun _ => []) ∧
      (promptSeen^[n] s).tty = s.tty ∧
      (s.tty = true → (promptSeen^[n] s).inputOpen = s.inputOpen) := by
  induction n with
  | zero => exact ⟨htyped, rfl, rfl, fun _ => rfl⟩
  | succ n ih =>
    cases n with
    | zero => simpa using promptSeen_first s hprompts htyped
    | succ n =>
      obtain ⟨htyped', hsecret, htty, hopen⟩ := ih
      obtain ⟨-, hcount, -⟩ := iterate_promptSeen_fields (n + 1) s
      obtain ⟨h₁, h₂, h₃, h₄⟩ := promptSeen_later (promptSeen^[n + 1] s) (by omega)
      rw [Function.iterate_succ_apply']
      refine ⟨?_, ?_, h₃.trans htty, fun ht => h₄.trans (hopen ht)⟩
      · rw [h₁, htyped', htty, answers_succ]
        by_cases ht : s.tty = true
        · rw [hopen ht]
        · simp [ht]
      · rw [h₂, hsecret]
        split_ifs <;> cases s.secret <;> first | rfl | omega

/-! ### What the reads show -/

/-- The text of each read that goes to the output, with the session that
blanks it. -/
def ownTexts (s : RootSession) : List Bytes → List (RootSession × Bytes)
  | [] => []
  | chunk :: reads =>
    let (s', text) := s.readText chunk
    (s', (s'.hold text).2) :: (s.ioRead chunk).1.ownTexts reads

/-- A read behind `stream` that completes no prompt: its own text, and a tail
that begins one.  Blanking the password leaves the tail alone and makes no
longer one. -/
def SparesCut (nonce secret stream chunk : Bytes) : Prop :=
  find nonce (stream ++ chunk) = none → ∀ own tail,
    stream.drop (stream.length - begun nonce stream) ++ chunk = own ++ tail →
      tail.length = begun nonce (stream ++ chunk) →
        ∃ shown, Blanked secret own shown ∧ Blanked secret (own ++ tail) (shown ++ tail) ∧
          begun nonce (shown ++ tail) = tail.length

/-- The same of every read, up to the first prompt. -/
def SparesCuts (nonce secret : Bytes) : Bytes → List Bytes → Prop
  | _, [] => True
  | stream, chunk :: reads =>
    SparesCut nonce secret stream chunk ∧ SparesCuts nonce secret (stream ++ chunk) reads

/-- Blanking the password spares the beginnings of a prompt in a stream that is
cut into these reads. -/
def Spares (s : RootSession) (stream : Bytes) (reads : List Bytes) : Prop :=
  ∀ secret, s.secret = some secret → kRedactedSecretMin ≤ secret.length →
    SparesCuts s.nonce secret stream reads

/-- What became of a stream: the state it leaves, and the text before any
password in it is blanked. -/
structure Answered (s : RootSession) (stream : Bytes) (s' : RootSession) (text : Bytes) : Prop where
  unprompted : find s.nonce stream = none → s'.prompts = 0 ∧ text = stream
  prompted : ∀ pre post, stream = pre ++ (s.nonce ++ post) →
    find s.nonce stream = some pre.length →
    0 < s'.prompts ∧ ∃ later, Without s.nonce post later ∧ text = pre ++ later
  typed : s'.typed = s.answers s'.prompts
  secret : s'.secret = if s'.prompts ≤ 1 then s.secret else s.secret.map fun _ => []

/-- A session before its first read. -/
structure Started (s : RootSession) : Prop where
  nonce : s.nonce ≠ []
  nonceCarry : s.nonceCarry = []
  prompts : s.prompts = 0
  typed : s.typed = []

/-- Where a session stands after `stream`, of which it has let `text` go. -/
structure Follows (s₀ : RootSession) (stream : Bytes) (s : RootSession) (text : Bytes) : Prop where
  seen : { s with nonceCarry := [] } = promptSeen^[s.prompts] s₀
  waiting : s.prompts = 0 → text ++ s.nonceCarry = stream ∧
    s.nonceCarry.length = begun s₀.nonce stream ∧ find s₀.nonce s.nonceCarry = none ∧
    ∀ more, find s₀.nonce (stream ++ more) =
      (find s₀.nonce (s.nonceCarry ++ more)).map (· + text.length)
  answered : 0 < s.prompts → s.nonceCarry = [] ∧ ∃ pre post later,
    stream = pre ++ (s₀.nonce ++ post) ∧ find s₀.nonce stream = some pre.length ∧
      Without s₀.nonce post later ∧ text = pre ++ later

section Run

variable {s₀ s : RootSession} {stream text : Bytes}

theorem clear_eq (h : s.nonceCarry = []) : { s with nonceCarry := [] } = s := by
  obtain ⟨nonce, secret, tty, inputOpen, nonceCarry, prompts, secretRejected, typed⟩ := s
  obtain rfl : nonceCarry = [] := h
  rfl

theorem Started.follows (h : s.Started) : s.Follows [] s [] where
  seen := by rw [clear_eq h.nonceCarry, h.prompts, Function.iterate_zero_apply]
  waiting _ := by
    rw [h.nonceCarry]
    exact ⟨rfl, by simp [begun, heldTail], if_neg h.nonce, fun more => by simp⟩
  answered hpos := absurd h.prompts hpos.ne'

/-- Once a prompt was seen nothing is held back. -/
theorem hold_of_pos (h : 0 < s.prompts) (text : Bytes) :
    s.hold text = ({ s with nonceCarry := [] }, text) := by
  have hnone : s.heldLength text = 0 := by
    rw [heldLength, if_neg h.ne', Nat.min_zero, heldTail]
  simp [hold, hnone]

/-- Pieces with no prompt between them are the text without its prompts. -/
theorem without_of_cuts {pat rest : Bytes} {pieces : List Bytes} (h : Cuts pat rest pieces) :
    Without pat rest pieces.flatten := by
  induction h with
  | last => simpa using Without.refl _
  | cut _ _ ih => exact (Without.refl _).append (.cut ih)

theorem Follows.nonce_eq (h : s₀.Follows stream s text) : s.nonce = s₀.nonce := by
  rw [← (iterate_promptSeen_fields s.prompts s₀).1, ← h.seen]

/-- A read is the next piece: what was held back, the text between its
prompts, and every prompt seen. -/
theorem Follows.readText_spec (h : s₀.Follows stream s text) (hnonce : s₀.nonce ≠ []) (chunk : Bytes) :
    ∃ pieces, Cuts s₀.nonce (s.nonceCarry ++ chunk) pieces ∧
      (s.readText chunk).2 = pieces.flatten ∧
      (s.readText chunk).1 = promptSeen^[s.prompts + (pieces.length - 1)] s₀ := by
  have hname := h.nonce_eq
  obtain ⟨pieces, hcuts, heq⟩ := @cutPrompts_spec { s with nonceCarry := [] } [] (s.nonceCarry ++ chunk)
    (by rwa [← hname] at hnonce) _ le_rfl
  refine ⟨pieces, hname ▸ hcuts, ?_, ?_⟩
  · rw [readText, heq, List.nil_append]
  · rw [readText, heq, h.seen, ← Function.iterate_add_apply, Nat.add_comm]

/-- What is held back is the end of the stream that begins a prompt. -/
theorem Follows.carry_eq (h : s₀.Follows stream s text) (hzero : s.prompts = 0) :
    s.nonceCarry = stream.drop (stream.length - begun s₀.nonce stream) := by
  obtain ⟨hstream, hbegun, -⟩ := h.waiting hzero
  rw [← hbegun, ← hstream, List.length_append, Nat.add_sub_cancel, List.drop_left]

/-- One read. -/
theorem Follows.read (h : s₀.Follows stream s text) (hstart : s₀.Started) (chunk : Bytes) :
    s₀.Follows (stream ++ chunk) ((s.readText chunk).1.hold (s.readText chunk).2).1
      (text ++ ((s.readText chunk).1.hold (s.readText chunk).2).2) := by
  obtain ⟨pieces, hcuts, htext, hstate⟩ := h.readText_spec hstart.nonce chunk
  generalize hs' : (s.readText chunk).1 = s' at *
  generalize ht' : (s.readText chunk).2 = text' at *
  obtain ⟨hname, hcount, hcarry⟩ := iterate_promptSeen_fields (s.prompts + (pieces.length - 1)) s₀
  rw [← hstate] at hname hcount hcarry
  rw [hstart.prompts, Nat.zero_add] at hcount
  have hseen : { (s'.hold text').1 with nonceCarry := [] } = promptSeen^[s'.prompts] s₀ := by
    rw [hcount, ← hstate]
    exact clear_eq (hcarry.trans hstart.nonceCarry)
  by_cases hpos : 0 < s'.prompts
  · -- nothing is held back; the prompt came with this read or an earlier one
    have hhold := hold_of_pos hpos text'
    rw [hhold] at hseen ⊢
    refine ⟨hseen, fun hzero => absurd hzero hpos.ne', fun _ => ⟨rfl, ?_⟩⟩
    by_cases hold : 0 < s.prompts
    · obtain ⟨hnone, pre, post, later, hstream, hfind, hwithout, heq⟩ := h.answered hold
      rw [hnone, List.nil_append] at hcuts
      refine ⟨pre, post ++ chunk, later ++ text', ?_, find_append_right hfind chunk, ?_, ?_⟩
      · rw [hstream]
        simp only [List.append_assoc]
      · rw [htext]
        exact hwithout.append (without_of_cuts hcuts)
      · rw [heq, List.append_assoc]
    · obtain ⟨hstream, -, -, hfind⟩ := h.waiting (Nat.eq_zero_of_not_pos hold)
      have hwhole := hfind chunk
      generalize hinput : s.nonceCarry ++ chunk = input at hcuts hwhole
      cases hcuts with
      | last =>
        rw [List.length_singleton] at hcount
        omega
      | @cut a rest pieces hat hrest =>
        refine ⟨text ++ a, rest, pieces.flatten, ?_, ?_, without_of_cuts hrest, ?_⟩
        · rw [← hstream, List.append_assoc, hinput]
          simp only [List.append_assoc]
        · rw [hwhole, hat, List.length_append]
          exact congrArg some (Nat.add_comm _ _)
        · rw [htext, List.flatten_cons, List.append_assoc]
  · -- no prompt yet: the tail that may begin one is held back
    have hzero : s'.prompts = 0 := Nat.eq_zero_of_not_pos hpos
    refine ⟨hseen, fun _ => ?_, fun hp => absurd hzero hp.ne'⟩
    obtain ⟨hstream, hbegun, -, hfind⟩ := h.waiting (by omega)
    generalize hinput : s.nonceCarry ++ chunk = input at hcuts
    cases hcuts with
    | cut hat hrest =>
      have := List.length_pos_iff.mpr hrest.ne_nil
      rw [List.length_cons] at hcount
      omega
    | last hnone =>
      obtain rfl : text' = input := htext.trans (List.append_nil input)
      have hheld : s'.heldLength text' = begun s₀.nonce text' := by
        rw [heldLength, if_pos hzero, hname, begun]
      refine ⟨?_, ?_, find_eq_none fun hin => hnone (hin.trans (List.drop_suffix _ _).isInfix),
        fun more => ?_⟩
      · show text ++ text'.take _ ++ text'.drop _ = stream ++ chunk
        rw [List.append_assoc, List.take_append_drop, ← hstream, List.append_assoc, hinput]
      · have hle := begun_le s₀.nonce text'
        have hlength : (text'.drop (text'.length - s'.heldLength text')).length =
            begun s₀.nonce text' := by
          rw [List.length_drop, hheld]
          omega
        refine hlength.trans ?_
        rw [← begun_append stream chunk, ← h.carry_eq (by omega), hinput]
      · show _ = (find s₀.nonce (text'.drop _ ++ more)).map (· + (text ++ text'.take _).length)
        rw [List.append_assoc, hfind, ← List.append_assoc, hinput,
          find_held (find_eq_none_iff.mpr hnone), ← begun, ← hheld, Option.map_map]
        refine congrFun (congrArg Option.map ?_) _
        funext i
        rw [Function.comp_apply, List.length_append, List.length_take]
        omega

theorem redact_of_blanked {secret own shown : Bytes} (hsecret : s.secret = some secret)
    (hlong : kRedactedSecretMin ≤ secret.length) (h : Blanked secret own shown) :
    s.redact own = shown := by
  rw [redact, hsecret]
  dsimp only
  rw [if_pos hlong, redactFrom_of_blanked hlong h le_rfl, List.nil_append]

theorem redact_of_not
    (h : ¬∃ secret, s.secret = some secret ∧ kRedactedSecretMin ≤ secret.length) (own : Bytes) :
    s.redact own = own := by
  rw [redact]
  cases hsecret : s.secret with
  | none => rfl
  | some secret => exact if_neg fun hlong => h ⟨secret, hsecret, hlong⟩

/-- Holding back the tail of a text that begins a prompt. -/
theorem hold_append {own tail : Bytes} (hzero : s.prompts = 0)
    (htail : tail.length = begun s.nonce (own ++ tail)) :
    s.hold (own ++ tail) = ({ s with nonceCarry := tail }, own) := by
  have hheld : s.heldLength (own ++ tail) = tail.length := by
    rw [heldLength, if_pos hzero, htail, begun]
  rw [hold, hheld, List.length_append, Nat.add_sub_cancel, List.drop_left, List.take_left]

/-- It is the same to blank the password first. -/
theorem Follows.hold_redact (h : s₀.Follows stream s text) (hstart : s₀.Started) {chunk : Bytes}
    (hspare : ∀ secret, s₀.secret = some secret → kRedactedSecretMin ≤ secret.length →
      SparesCut s₀.nonce secret stream chunk) :
    (s.readText chunk).1.hold ((s.readText chunk).1.redact (s.readText chunk).2) =
      (((s.readText chunk).1.hold (s.readText chunk).2).1,
        (s.readText chunk).1.redact ((s.readText chunk).1.hold (s.readText chunk).2).2) := by
  have hread := h.read hstart chunk
  obtain ⟨pieces, hcuts, htext, hstate⟩ := h.readText_spec hstart.nonce chunk
  generalize hs' : (s.readText chunk).1 = s' at *
  generalize ht' : (s.readText chunk).2 = text' at *
  obtain ⟨hname, hcount, -⟩ := iterate_promptSeen_fields (s.prompts + (pieces.length - 1)) s₀
  rw [← hstate] at hname hcount
  rw [hstart.prompts, Nat.zero_add] at hcount
  by_cases hpos : 0 < s'.prompts
  · rw [hold_of_pos hpos, hold_of_pos hpos]
  -- no prompt was seen: the session is the one that started
  have hzero : s'.prompts = 0 := Nat.eq_zero_of_not_pos hpos
  have hsame : s' = s₀ := by
    rw [hstate, ← hcount, hzero, Function.iterate_zero_apply]
  have hinput : text' = s.nonceCarry ++ chunk := by
    generalize s.nonceCarry ++ chunk = input at hcuts
    cases hcuts with
    | last => exact htext.trans (List.append_nil input)
    | cut _ hrest =>
      have := List.length_pos_iff.mpr hrest.ne_nil
      rw [List.length_cons] at hcount
      omega
  have hcarry := h.carry_eq (by omega)
  have hnone : find s₀.nonce (stream ++ chunk) = none := by
    obtain ⟨-, -, hnone, hwhole⟩ := hread.waiting hzero
    have hstill := hwhole []
    rwa [List.append_nil, List.append_nil, hnone] at hstill
  have hbegun : begun s₀.nonce text' = begun s₀.nonce (stream ++ chunk) := by
    rw [hinput, hcarry, begun_append]
  have hle := begun_le s₀.nonce text'
  obtain ⟨own, tail, rfl, htail⟩ : ∃ own tail, text' = own ++ tail ∧
      tail.length = begun s₀.nonce text' :=
    ⟨text'.take (text'.length - begun s₀.nonce text'), text'.drop (text'.length - begun s₀.nonce text'),
      (List.take_append_drop _ _).symm, by rw [List.length_drop]; omega⟩
  rw [hsame, hold_append hstart.prompts htail]
  by_cases hblanks : ∃ secret, s₀.secret = some secret ∧ kRedactedSecretMin ≤ secret.length
  · obtain ⟨secret, hsecret, hlong⟩ := hblanks
    obtain ⟨shown, hown, hall, hkept⟩ := hspare secret hsecret hlong hnone own tail
      (by rw [← hcarry, ← hinput]) (htail.trans hbegun)
    rw [redact_of_blanked hsecret hlong hall, redact_of_blanked hsecret hlong hown,
      hold_append hstart.prompts hkept.symm]
  · rw [redact_of_not hblanks, redact_of_not hblanks, hold_append hstart.prompts htail]

/-- All reads: each shows its own text with the password blanked. -/
theorem Follows.run (h : s₀.Follows stream s text) (hstart : s₀.Started) (reads : List Bytes)
    (hspare : s₀.Spares stream reads) :
    s₀.Follows (stream ++ reads.flatten) (s.ioLoop reads).1
        (text ++ ((s.ownTexts reads).map Prod.snd).flatten) ∧
      (s.ioLoop reads).2 = (s.ownTexts reads).map fun t => t.1.redact t.2 := by
  induction reads generalizing s stream text with
  | nil =>
    refine ⟨?_, rfl⟩
    simpa [ioLoop, ownTexts] using h
  | cons chunk reads ih =>
    have hio : s.ioRead chunk = s.answerRootPrompt chunk := if_neg (h.nonce_eq ▸ hstart.nonce)
    have hstep := h.read hstart chunk
    have hanswer : s.answerRootPrompt chunk =
        (((s.readText chunk).1.hold (s.readText chunk).2).1,
          (s.readText chunk).1.redact ((s.readText chunk).1.hold (s.readText chunk).2).2) :=
      h.hold_redact hstart fun secret hsecret hlong => (hspare secret hsecret hlong).1
    obtain ⟨hrest, hshown⟩ := ih hstep fun secret hsecret hlong => (hspare secret hsecret hlong).2
    rw [ioLoop, ownTexts, hio, hanswer]
    refine ⟨?_, ?_⟩
    · simpa [List.append_assoc] using hrest
    · simpa using hshown

theorem Follows.result (h : s₀.Follows stream s text) (hstart : s₀.Started) :
    s₀.Answered stream s (text ++ s.nonceCarry) := by
  obtain ⟨htyped, hsecret, -⟩ := iterate_promptSeen s₀ hstart.prompts hstart.typed s.prompts
  rw [← h.seen] at htyped hsecret
  refine ⟨fun hnone => ?_, fun pre post hstream hfind => ?_, htyped, hsecret⟩
  · by_cases hpos : 0 < s.prompts
    · obtain ⟨-, pre, post, later, -, hfind, -⟩ := h.answered hpos
      rw [hnone] at hfind
      cases hfind
    · have hzero : s.prompts = 0 := Nat.eq_zero_of_not_pos hpos
      exact ⟨hzero, (h.waiting hzero).1⟩
  · by_cases hpos : 0 < s.prompts
    · obtain ⟨hnone, pre', post', later, hstream', hfind', hwithout, heq⟩ := h.answered hpos
      have hlen : pre.length = pre'.length := Option.some.inj (hfind.symm.trans hfind')
      obtain ⟨rfl, hrest⟩ := List.append_inj (hstream.symm.trans hstream') hlen
      obtain rfl : post = post' := List.append_cancel_left hrest
      exact ⟨hpos, later, hwithout, by rw [heq, hnone, List.append_nil]⟩
    · -- an unseen prompt would stand in what is held back
      obtain ⟨-, -, hnone, hwhole⟩ := h.waiting (Nat.eq_zero_of_not_pos hpos)
      have hstill := hwhole []
      rw [List.append_nil, List.append_nil, hnone, hfind] at hstill
      cases hstill

end Run

end RootSession

/-- However a root command's output is cut into reads, its first prompt, and
that prompt only, is taken out of what comes before it and is answered; the
password is typed for that prompt alone and wiped at the next. -/
theorem root_prompt_answered {s : RootSession} (h : s.Started) (reads : List Bytes)
    (hspare : s.Spares [] reads) :
    (s.ioLoop reads).2 = (s.ownTexts reads).map (fun t => t.1.redact t.2) ∧
      s.Answered reads.flatten (s.ioLoop reads).1
        (((s.ownTexts reads).map Prod.snd).flatten ++ (s.ioLoop reads).1.nonceCarry) := by
  obtain ⟨hfollows, hshown⟩ := h.follows.run h reads hspare
  rw [List.nil_append, List.nil_append] at hfollows
  exact ⟨hshown, hfollows.result h⟩

/-- A session as `RunShellCommand` starts it. -/
def rootSession (nonce secret : Bytes) : RootSession :=
  { nonce := nonce, secret := some secret, tty := false }

/-- A prompt cut in two, and the password that a command prints. -/
def promptedReads : List Bytes := [lit "hello ab", lit "cd1234world", lit "x pass1 y"]

/-- The first read ends as the prompt begins, with no password in it; the second
completes the prompt. -/
theorem promptedReads_spares :
    (rootSession (lit "abcd1234") (lit "pass1")).Spares [] promptedReads := by
  intro secret hsecret _
  obtain rfl : lit "pass1" = secret := Option.some.inj hsecret
  refine ⟨fun _ own tail htext htail => ?_, fun hnone => absurd hnone (by decide),
    fun hnone => absurd hnone (by decide), trivial⟩
  have htwo : tail.length = 2 := htail.trans (by decide)
  have hown : own = lit "hello " ∧ tail = lit "ab" := by
    have hsplit : lit "hello " ++ lit "ab" = own ++ tail := htext
    have hlength := congrArg List.length hsplit
    rw [List.length_append, List.length_append, htwo] at hlength
    obtain ⟨h₁, h₂⟩ := List.append_inj hsplit (Nat.add_right_cancel hlength)
    exact ⟨h₁.symm, h₂.symm⟩
  obtain ⟨rfl, rfl⟩ := hown
  exact ⟨lit "hello ", .done (by decide), .done (by decide), by decide⟩

theorem root_prompt_answered_once :
    ((rootSession (lit "abcd1234") (lit "pass1")).ioLoop promptedReads).2 =
        ((rootSession (lit "abcd1234") (lit "pass1")).ownTexts promptedReads).map
          (fun t => t.1.redact t.2) ∧
      (rootSession (lit "abcd1234") (lit "pass1")).Answered promptedReads.flatten
        ((rootSession (lit "abcd1234") (lit "pass1")).ioLoop promptedReads).1
        ((((rootSession (lit "abcd1234") (lit "pass1")).ownTexts promptedReads).map
          Prod.snd).flatten ++
          ((rootSession (lit "abcd1234") (lit "pass1")).ioLoop promptedReads).1.nonceCarry) :=
  root_prompt_answered ⟨by decide, rfl, rfl, rfl⟩ promptedReads promptedReads_spares

/-- A nonce that does not overlap itself, and a stream without a prompt that is
not shown as it is. -/
theorem printed_password_not_shown :
    (rootSession (lit "abcd1234") (lit "pass1")).Started ∧
      (∀ k < 8, 0 < k → (lit "abcd1234").take k ≠ (lit "abcd1234").drop (8 - k)) ∧
      find (lit "abcd1234") [lit "x pass1 y"].flatten = none ∧
      (rootSession (lit "abcd1234") (lit "pass1")).shownAll [lit "x pass1 y"] ≠
        [lit "x pass1 y"].flatten :=
  ⟨⟨by decide, rfl, rfl, rfl⟩, by decide, by decide, by decide⟩

/-- A password that ends as the prompt begins is blanked with the tail to be
held back, and the prompt is missed. -/
example :
    ((rootSession (lit "abcd1234") (lit "pass1ab")).ioLoop [lit "pass1ab", lit "cd1234"]).1.prompts = 0 := by
  decide

end UAgent
