/-
UAgent/Agent/MemoryRedaction.lean

The redactor of src/agent/memory_store.cc: what is taken out of a text before
it is kept as a memory.  A cheap search for any of the markers decides
whether the passes run at all; then an assignment of a credential keyword, a
bearer token, the token of a known vendor and a PEM private key are replaced,
one regular expression after the other, each over what the last one left.

The passes are written over any symbols that stand for bytes, so that they
run on a text (`redactMemorySecrets`) and on a text whose bytes carry their
positions (`survivors`), and `map_redactPasses` says that the two agree.

The patterns are read by `Pattern.ends`, which tries them in the order a
backtracking engine does; keywords reach them escaped, so a keyword stands
for itself.
-/
import UAgent.Base.Pattern
import UAgent.Base.Sweep
import UAgent.Core.CaseSearch

namespace UAgent

open Bytes Pattern

/-! ### Character classes -/

/-- A character of a bracket expression, written out. -/
def oneOfChars (s : String) (c : UInt8) : Bool := c ∈ lit s

def isUpper (c : UInt8) : Bool := 0x41 ≤ c && c ≤ 0x5a
def isLower (c : UInt8) : Bool := 0x61 ≤ c && c ≤ 0x7a

/-- `[A-Za-z0-9]` and the characters given. -/
def alnumOr (s : String) (c : UInt8) : Bool :=
  isUpper c || isLower c || isDigit c || oneOfChars s c

/-- `[0-9A-Z]`. -/
def upperOrDigit (c : UInt8) : Bool := isDigit c || isUpper c

/-- `[A-Z0-9 ]`. -/
def labelChar (c : UInt8) : Bool := isUpper c || isDigit c || oneOfChars " " c

/-- `[ \t]`. -/
def blankChar (c : UInt8) : Bool := c = 0x20 || c = 0x09

/-- `\s`, as the classic locale has it. -/
def whitespace (c : UInt8) : Bool := c = 0x20 || (0x09 ≤ c && c ≤ 0x0d)

/-- `["']`. -/
def quote (c : UInt8) : Bool := c = 0x22 || c = 0x27

/-- `[:=]`. -/
def assigns (c : UInt8) : Bool := c = 0x3a || c = 0x3d

/-- `[^"'\s,;}]`; the brace is 0x7d. -/
def valueChar (c : UInt8) : Bool :=
  !(quote c || whitespace c || c = 0x2c || c = 0x3b || c = 0x7d)

/-- `[A-Za-z0-9._~+/=-]`. -/
def bearerChar (c : UInt8) : Bool := alnumOr "._~+/=-" c

/-! ### Literals -/

/-- A literal of a pattern. -/
def literal (s : Bytes) : Pattern UInt8 := syms (s.map fun k c => c == k)

/-- A literal of a pattern that folds case. -/
def literalNoCase (s : Bytes) : Pattern UInt8 :=
  syms (s.map fun k c => lowerChar c == lowerChar k)

/-! ### Keywords and vendor tokens -/

/-- `CredentialKeyStems`. -/
def credentialKeyStems : List Bytes :=
  [lit "api_key", lit "api-key", lit "apikey", lit "access_token", lit "token", lit "auth",
    lit "authorization", lit "password", lit "passwd", lit "secret", lit "credential"]

/-- `RedactKeywords`. -/
def redactKeywords : List Bytes :=
  credentialKeyStems ++
    [lit "api-key", lit "apikey", lit "access-token", lit "accesstoken", lit "auth_token",
      lit "auth-token", lit "authtoken"]

/-- `TokenShape`: the marker the gate searches for, and what is redacted. -/
structure TokenShape where
  marker : Bytes
  pattern : Pattern UInt8

/-- The shape of the GitHub tokens, which differ in the prefix. -/
def githubShape (marker : String) : TokenShape :=
  ⟨lit marker, seq (literal (lit marker)) (many (alnumOr "_") 16)⟩

/-- `kTokenShapes`. -/
def tokenShapes : List TokenShape :=
  [⟨lit "sk-", seq (literal (lit "sk-")) (seq (opt (literal (lit "proj-")))
      (many (alnumOr "_-") 16))⟩,
    githubShape "ghp_", githubShape "gho_", githubShape "ghu_", githubShape "ghs_",
    githubShape "ghr_", githubShape "github_pat_",
    ⟨lit "akia", seq (literal (lit "AKIA")) (times upperOrDigit 16)⟩,
    ⟨lit "xox", seq (literal (lit "xox")) (seq (sym (oneOfChars "baprs")) (seq (literal (lit "-"))
      (many (alnumOr "-") 10)))⟩,
    ⟨lit "aiza", seq (literal (lit "AIza")) (times (alnumOr "_-") 35)⟩]

/-! ### The gate -/

/-- The markers of `MentionsSecret`. -/
def secretMarkers : List Bytes :=
  redactKeywords ++ [lit "bearer", lit "-----begin"] ++ tokenShapes.map (·.marker)

/-- `MentionsSecret`. -/
def mentionsSecret (text : Bytes) : Bool := secretMarkers.any (containsCaseInsensitive text)

/-! ### The patterns -/

/-- `(keyword)([ \t]*[:=][ \t]*["']?)` of `kAssignment`: what is kept. -/
def assignmentAnchor : Pattern UInt8 :=
  seq (oneOf (redactKeywords.map literalNoCase))
    (seq (many blankChar 0) (seq (sym assigns) (seq (many blankChar 0) (opt (sym quote)))))

/-- `([^"'\s,;}]+)` of `kAssignment`: the value. -/
def assignmentValue : Pattern UInt8 := many valueChar 1

/-- `(Bearer[ \t]+)` of `kBearer`. -/
def bearerAnchor : Pattern UInt8 := seq (literalNoCase (lit "Bearer")) (many blankChar 1)

/-- `[A-Za-z0-9._~+/=-]{12,}` of `kBearer`. -/
def bearerToken : Pattern UInt8 := many bearerChar 12

/-- `kKnownToken`. -/
def knownToken : Pattern UInt8 := oneOf (tokenShapes.map (·.pattern))

/-- One of the two lines around a PEM key; the label is there or not. -/
def pemLine (head : String) : Pattern UInt8 :=
  seq (literal (lit head)) (seq (opt (seq (many labelChar 1) (literal (lit " "))))
    (literal (lit "PRIVATE KEY-----")))

/-- `kPrivateKeyBegin`. -/
def privateKeyBegin : Pattern UInt8 := pemLine "-----BEGIN "

/-- The end of `kPrivateKey`. -/
def privateKeyEnd : Pattern UInt8 := pemLine "-----END "

/-- `kPrivateKey` up to its last line. -/
def privateKeyBody : Pattern UInt8 := seq privateKeyBegin (fewest fun _ => true)

/-! ### The passes -/

/-- What a match of a pass keeps and drops. -/
abbrev Matcher := Bytes → Option (Nat × Nat)

/-- `$1$2[REDACTED]`: the value of an assignment. -/
def assignmentAt : Matcher := split assignmentAnchor assignmentValue

/-- `$1[REDACTED]`: the token behind `Bearer`. -/
def bearerAt : Matcher := split bearerAnchor bearerToken

/-- `[REDACTED]`: the whole of a vendor token. -/
def knownTokenAt : Matcher := split empty knownToken

/-- `[REDACTED PRIVATE KEY]`: the whole of a PEM key. -/
def privateKeyAt : Matcher := split empty (seq privateKeyBody privateKeyEnd)

/-- A BEGIN line, whatever follows. -/
def privateKeyBeginAt (s : Bytes) : Bool := (ends privateKeyBegin s).head?.isSome

/-- The mark of the first three passes. -/
def redactedMark : Bytes := lit "[REDACTED]"

/-- The mark of a private key. -/
def redactedKeyMark : Bytes := lit "[REDACTED PRIVATE KEY]"

section Passes

variable {α β : Type*} (byte : α → UInt8) (put : UInt8 → α)

/-- `std::regex_replace`, over symbols that stand for bytes. -/
def regexReplace (m : Matcher) (mark : Bytes) (s : List α) : List α :=
  Piece.renders (mark.map put) (Piece.sweep (fun t => m (t.map byte)) s)

/-- The position `std::regex_search` finds the first BEGIN line at. -/
def searchBegin : List α → Option Nat
  | [] => none
  | c :: t =>
    if privateKeyBeginAt ((c :: t).map byte) then some 0
    else (searchBegin t).map (· + 1)

/-- Whatever BEGIN survives has no END: the key is truncated, so is the
text. -/
def cutUnterminated (s : List α) : List α :=
  match searchBegin byte s with
  | some pos => s.take pos ++ redactedKeyMark.map put
  | none => s

/-- The passes of `RedactMemorySecrets`, in their order. -/
def redactPasses (s : List α) : List α :=
  let s := regexReplace byte put assignmentAt redactedMark s
  let s := regexReplace byte put bearerAt redactedMark s
  let s := regexReplace byte put knownTokenAt redactedMark s
  let s := regexReplace byte put privateKeyAt redactedKeyMark s
  cutUnterminated byte put s

end Passes

/-- `RedactMemorySecrets`. -/
def redactMemorySecrets (text : Bytes) : Bytes :=
  if mentionsSecret text then redactPasses id id text else text

end UAgent
