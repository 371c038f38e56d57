/-
UAgent/Core/Seatbelt.lean

The profile in which a policy of the sandbox is handed to macOS
(`SeatbeltProfile` of src/core/sandbox.cc): rules, of which the last one that
applies to a request decides.

Main results: the rules permit what the policy permits (`seatbelt_exact`), and
the text of a profile spells its rules whatever the paths are (`seatbelt_text`).
-/
import UAgent.Base.LastRule
import UAgent.Base.Sexp
import UAgent.Core.SandboxPolicy

namespace UAgent

open Bytes SlashPath

/-! ### Rules -/

/-- The operations that a profile names. -/
inductive SbplOp
  | default
  | fileWrite
  | fileWriteUnlink
  | fileReadData
  | fileRead
  | network
  | networkOutbound
deriving DecidableEq

inductive SbplFilter
  | subpath (root : Bytes)
  | literal (path : Bytes)
  /-- connecting to a socket below a path -/
  | unixSocket (root : Bytes)
deriving DecidableEq

/-- A rule without filters applies to every path. -/
structure SbplRule where
  allow : Bool
  ops : List SbplOp
  filters : List SbplFilter := []
deriving DecidableEq

namespace SbplOp

def name : SbplOp → Bytes
  | .default => lit "default"
  | .fileWrite => lit "file-write*"
  | .fileWriteUnlink => lit "file-write-unlink"
  | .fileReadData => lit "file-read-data"
  | .fileRead => lit "file-read*"
  | .network => lit "network*"
  | .networkOutbound => lit "network-outbound"

/-- Whether a request is one of the operation; connecting to a socket of the
file system is no request here. -/
def covers : SbplOp → SandboxRequest → Bool
  | .default, _ => true
  | .fileWrite, .write _ | .fileWrite, .unlink _ => true
  | .fileWriteUnlink, .unlink _ => true
  | .fileReadData, .read _ => true
  | .fileRead, .read _ | .fileRead, .stat _ => true
  | .network, .network => true
  | _, _ => false

end SbplOp

/-- The path that a request names. -/
def SandboxRequest.path? : SandboxRequest → Option Bytes
  | .write path | .unlink path | .read path | .stat path => some path
  | .network => none

def SbplFilter.holds (request : SandboxRequest) : SbplFilter → Bool
  | .subpath root => request.path?.any (sandboxPathWithin · root)
  | .literal path => request.path? = some path
  | .unixSocket _ => false

def SbplRule.applies (request : SandboxRequest) (rule : SbplRule) : Bool :=
  rule.ops.any (·.covers request) && (rule.filters.isEmpty || rule.filters.any (·.holds request))

/-- What a list of rules comes to.  The kernel decides it, and not a function of the
repository: the last rule that applies wins. -/
def sbplVerdict (rules : List SbplRule) (request : SandboxRequest) : Bool :=
  LastRule.verdict (SbplRule.applies request) SbplRule.allow false rules

/-! ### The profile -/

def allowWrites (root : Bytes) : SbplRule := ⟨true, [.fileWrite], [.subpath root]⟩
def denyWrites (root : Bytes) : SbplRule := ⟨false, [.fileWrite], [.subpath root]⟩
def denyReads (root : Bytes) : SbplRule := ⟨false, [.fileReadData], [.subpath root]⟩
def allowReads (root : Bytes) : SbplRule := ⟨true, [.fileReadData], [.subpath root]⟩

/-- `DenyUnlinkAbove` -/
def denyUnlinkAbove (path : Bytes) : SbplRule :=
  ⟨false, [.fileWriteUnlink], (above path).map .literal⟩

/-- The rules about a withheld path: a root inside it is granted again. -/
def withheldRules (writableRoots : List Bytes) (withheld : Bytes) : List SbplRule :=
  denyWrites withheld ::
    (writableRoots.filter (sandboxPathWithin · withheld)).map allowWrites ++
      [denyUnlinkAbove withheld]

/-- The rules about a hidden path. -/
def hiddenRules (hidden : Bytes) : List SbplRule :=
  [⟨false, [.fileRead, .fileWrite], [.subpath hidden]⟩,
    ⟨false, [.networkOutbound], [.unixSocket hidden]⟩, denyUnlinkAbove hidden]

/-- The rules of a profile, in their order. -/
def seatbeltRules (policy : SandboxPolicy) : List SbplRule :=
  [⟨true, [.default], []⟩, ⟨false, [.fileWrite], []⟩] ++ policy.writableRoots.map allowWrites ++
    policy.withheld.flatMap (withheldRules policy.writableRoots) ++
    policy.deniedWrites.map denyWrites ++
    (if policy.allowNetwork then [] else [⟨false, [.network], []⟩]) ++
    policy.unreadable.map denyReads ++ policy.readable.map allowReads ++
    policy.hidden.flatMap hiddenRules

/-! ### Its text -/

def SbplFilter.text : SbplFilter → Bytes
  | .subpath root => lit "(subpath " ++ Sexp.quote root ++ lit ")"
  | .literal path => lit "(literal " ++ Sexp.quote path ++ lit ")"
  | .unixSocket root =>
    lit "(remote unix-socket (path-prefix " ++ Sexp.quote root ++ lit "))"

def SbplRule.text (rule : SbplRule) : Bytes :=
  (if rule.allow then lit "(allow" else lit "(deny") ++
    rule.ops.flatMap (fun op => lit " " ++ op.name) ++
    rule.filters.flatMap (fun filter => lit " " ++ filter.text) ++ lit ")\n"

def kSeatbeltProfileLimit : Nat := 64 * 1024

/-- What `SeatbeltProfile` puts together. -/
def profileText (policy : SandboxPolicy) : Bytes :=
  lit "(version 1)\n" ++ (seatbeltRules policy).flatMap SbplRule.text

/-- `SeatbeltProfile` -/
def seatbeltProfile (policy : SandboxPolicy) : Bytes :=
  if kSeatbeltProfileLimit < (profileText policy).length then [] else profileText policy

/-! ### What the rules permit -/

section Verdict

variable {policy : SandboxPolicy} {request : SandboxRequest} {path : Bytes}

/-- The verdict behind other rules. -/
def verdictFrom (request : SandboxRequest) (start : Bool) (rules : List SbplRule) : Bool :=
  LastRule.verdict (SbplRule.applies request) SbplRule.allow start rules

/-- Whether a root of the list holds the path of the request. -/
def heldAt (roots : List Bytes) (request : SandboxRequest) : Bool :=
  roots.any fun root => request.path?.any (sandboxPathWithin · root)

theorem verdictFrom_append (start : Bool) (a b : List SbplRule) :
    verdictFrom request start (a ++ b) = verdictFrom request (verdictFrom request start a) b :=
  LastRule.verdict_append _ _ start a b

/-- One operation on the paths below some roots. -/
theorem any_subpath (allow : Bool) (op : SbplOp) (roots : List Bytes) :
    (roots.map fun root => ⟨allow, [op], [.subpath root]⟩).any (SbplRule.applies request) =
      (op.covers request && heldAt roots request) := by
  rw [List.any_map, heldAt]
  induction roots with
  | nil => simp
  | cons root roots ih =>
    rw [List.any_cons, List.any_cons, ih, Bool.and_or_distrib_left]
    simp [SbplRule.applies, SbplFilter.holds]

theorem verdictFrom_allow (start : Bool) (op : SbplOp) (roots : List Bytes) :
    verdictFrom request start (roots.map fun root => ⟨true, [op], [.subpath root]⟩) =
      (start || op.covers request && heldAt roots request) := by
  rw [verdictFrom, LastRule.verdict_of_forall true (by simp), any_subpath]
  cases start <;> cases op.covers request && heldAt roots request <;> rfl

theorem verdictFrom_deny (start : Bool) (op : SbplOp) (roots : List Bytes) :
    verdictFrom request start (roots.map fun root => ⟨false, [op], [.subpath root]⟩) =
      (start && !(op.covers request && heldAt roots request)) := by
  rw [verdictFrom, LastRule.verdict_of_forall false (by simp), any_subpath]
  cases start <;> cases op.covers request && heldAt roots request <;> rfl

/-- Whether the rule about the folders above a path forbids the request. -/
def movesAbove (request : SandboxRequest) (kept : Bytes) : Bool :=
  SbplOp.covers .fileWriteUnlink request &&
    ((above kept).isEmpty || (above kept).any fun folder => request.path? = some folder)

theorem applies_denyUnlinkAbove (kept : Bytes) :
    (denyUnlinkAbove kept).applies request = movesAbove request kept := by
  simp [denyUnlinkAbove, SbplRule.applies, movesAbove, SbplFilter.holds, Function.comp_def]

/-- Rules that all forbid. -/
theorem verdictFrom_of_deny {rules : List SbplRule} (h : ∀ rule ∈ rules, rule.allow = false)
    (start : Bool) :
    verdictFrom request start rules = (start && !rules.any (SbplRule.applies request)) := by
  rw [verdictFrom, LastRule.verdict_of_forall false h]
  cases start <;> cases rules.any (SbplRule.applies request) <;> rfl

/-- A withheld folder, and what is granted in it again. -/
theorem verdictFrom_withheld (start : Bool) (roots : List Bytes) (withheld : Bytes) :
    verdictFrom request start (withheldRules roots withheld) =
      ((start && !(SbplOp.covers .fileWrite request && heldAt [withheld] request) ||
        SbplOp.covers .fileWrite request &&
          heldAt (roots.filter (sandboxPathWithin · withheld)) request) &&
        !movesAbove request withheld) := by
  have hcut : withheldRules roots withheld =
      [withheld].map denyWrites ++
        ((roots.filter (sandboxPathWithin · withheld)).map allowWrites ++
          [denyUnlinkAbove withheld]) := rfl
  have hlast : ∀ start, verdictFrom request start [denyUnlinkAbove withheld] =
      (start && !movesAbove request withheld) := by
    intro start
    rw [verdictFrom_of_deny (by simp [denyUnlinkAbove]), List.any_cons, List.any_nil, Bool.or_false,
      applies_denyUnlinkAbove]
  rw [hcut, verdictFrom_append, verdictFrom_append, hlast]
  exact congrArg (· && _) ((congrArg (verdictFrom request · _)
    (verdictFrom_deny start .fileWrite [withheld])).trans (verdictFrom_allow _ .fileWrite _))

theorem verdictFrom_hidden (start : Bool) (hidden : List Bytes) :
    verdictFrom request start (hidden.flatMap hiddenRules) =
      (start && !((SbplOp.covers .fileRead request || SbplOp.covers .fileWrite request) &&
        heldAt hidden request) && !hidden.any (movesAbove request)) := by
  have hdeny : ∀ rule ∈ hidden.flatMap hiddenRules, rule.allow = false := by
    intro rule hrule
    obtain ⟨path, -, hpath⟩ := List.mem_flatMap.mp hrule
    simp only [hiddenRules, List.mem_cons, List.not_mem_nil, or_false] at hpath
    rcases hpath with rfl | rfl | rfl <;> rfl
  rw [verdictFrom_of_deny hdeny, List.any_flatMap]
  have hone : ∀ path, (hiddenRules path).any (SbplRule.applies request) =
      ((SbplOp.covers .fileRead request || SbplOp.covers .fileWrite request) &&
        request.path?.any (sandboxPathWithin · path) || movesAbove request path) := by
    intro path
    have hsocket : SbplRule.applies request
        ⟨false, [.networkOutbound], [.unixSocket path]⟩ = false := by
      cases request <;> rfl
    rw [hiddenRules, List.any_cons, List.any_cons, List.any_cons, List.any_nil, hsocket,
      applies_denyUnlinkAbove]
    simp [SbplRule.applies, SbplFilter.holds]
  have hany : ∀ (both : Bool) (p q : Bytes → Bool),
      hidden.any (fun path => both && p path || q path) =
        (both && hidden.any p || hidden.any q) := by
    intro both p q
    rw [Bool.eq_iff_iff]
    cases both <;> simp [exists_or, and_or_left]
  simp only [hone, heldAt, hany, Bool.not_or, Bool.and_assoc]

/-- Some withheld or hidden path lies right below the root: the rule about the
folders above it has no filter, and forbids that any name be removed. -/
def keepsAllNames (policy : SandboxPolicy) : Bool :=
  (policy.withheld ++ policy.hidden).any fun kept => (above kept).isEmpty

theorem verdictFrom_start :
    verdictFrom request false [⟨true, [.default], []⟩, ⟨false, [.fileWrite], []⟩] =
      !SbplOp.covers .fileWrite request := by
  cases request <;> rfl

theorem verdictFrom_network (start allowNetwork : Bool) :
    verdictFrom request start (if allowNetwork then [] else [⟨false, [.network], []⟩]) =
      (start && !(SbplOp.covers .network request && !allowNetwork)) := by
  cases allowNetwork <;> cases start <;> cases request <;> rfl

/-- The rules in one formula, but for those about withheld paths. -/
theorem sbplVerdict_eq (policy : SandboxPolicy) (request : SandboxRequest) :
    sbplVerdict (seatbeltRules policy) request =
      (((verdictFrom request (!SbplOp.covers .fileWrite request ||
          SbplOp.covers .fileWrite request && heldAt policy.writableRoots request)
        (policy.withheld.flatMap (withheldRules policy.writableRoots)) &&
        !(SbplOp.covers .fileWrite request && heldAt policy.deniedWrites request) &&
        !(SbplOp.covers .network request && !policy.allowNetwork) &&
        !(SbplOp.covers .fileReadData request && heldAt policy.unreadable request) ||
        SbplOp.covers .fileReadData request && heldAt policy.readable request) &&
        !((SbplOp.covers .fileRead request || SbplOp.covers .fileWrite request) &&
          heldAt policy.hidden request)) && !policy.hidden.any (movesAbove request)) := by
  show verdictFrom request false (seatbeltRules policy) = _
  have hdenied : ∀ start, verdictFrom request start (policy.deniedWrites.map denyWrites) =
      (start && !(SbplOp.covers .fileWrite request && heldAt policy.deniedWrites request)) :=
    fun start => verdictFrom_deny start .fileWrite _
  have hwritable : ∀ start, verdictFrom request start (policy.writableRoots.map allowWrites) =
      (start || SbplOp.covers .fileWrite request && heldAt policy.writableRoots request) :=
    fun start => verdictFrom_allow start .fileWrite _
  have hunreadable : ∀ start, verdictFrom request start (policy.unreadable.map denyReads) =
      (start && !(SbplOp.covers .fileReadData request && heldAt policy.unreadable request)) :=
    fun start => verdictFrom_deny start .fileReadData _
  have hreadable : ∀ start, verdictFrom request start (policy.readable.map allowReads) =
      (start || SbplOp.covers .fileReadData request && heldAt policy.readable request) :=
    fun start => verdictFrom_allow start .fileReadData _
  simp only [seatbeltRules, verdictFrom_append, verdictFrom_hidden, hreadable, hunreadable,
    verdictFrom_network, hdenied, hwritable, verdictFrom_start]

theorem heldAt_path (request : SandboxRequest) (path : Bytes) (hpath : request.path? = some path)
    (roots : List Bytes) : heldAt roots request = heldBy roots path := by
  rw [heldAt, hpath]
  rfl

/-- What the rules about at most one withheld path come to for a write. -/
theorem verdictFrom_withheld_le_one (hone : policy.withheld.length ≤ 1)
    (request : SandboxRequest) (path : Bytes) (hpath : request.path? = some path)
    (hwrite : SbplOp.covers .fileWrite request = true) :
    verdictFrom request (heldBy policy.writableRoots path)
        (policy.withheld.flatMap (withheldRules policy.writableRoots)) =
      (heldBy policy.writableRoots path && (!heldBy policy.withheld path ||
        heldBy (policy.writableRoots.filter (heldBy policy.withheld)) path) &&
        !policy.withheld.any (movesAbove request)) := by
  have hat := heldAt_path request path hpath
  rcases hw : policy.withheld with - | ⟨w, - | ⟨w', more⟩⟩
  · simp [verdictFrom, heldBy]
  · have hin : heldBy [w] = fun root => sandboxPathWithin root w := by
      funext root
      exact Bool.or_false _
    rw [List.flatMap_singleton, verdictFrom_withheld, hat, hat, hwrite, hin, List.any_cons,
      List.any_nil, Bool.or_false, Bool.true_and, Bool.true_and]
    by_cases hinside :
        heldBy (policy.writableRoots.filter fun root => sandboxPathWithin root w) path = true
    · obtain ⟨root, hroot, hheld⟩ := heldBy_eq_true.mp hinside
      have hheld : heldBy policy.writableRoots path = true :=
        heldBy_eq_true.mpr ⟨root, (List.mem_filter.mp hroot).1, hheld⟩
      rw [hinside, hheld, Bool.or_true, Bool.or_true, Bool.and_true]
    · rw [Bool.eq_false_iff.mpr hinside, Bool.or_false, Bool.or_false]
  · rw [hw] at hone
    simp at hone

/-- The rule about the folders above a kept path. -/
theorem any_movesAbove_unlink (kept : List Bytes) (path : Bytes) :
    kept.any (movesAbove (.unlink path)) =
      (kept.any (fun k => (above k).isEmpty) || kept.any fun k => path ∈ above k) := by
  have hone : ∀ k, movesAbove (.unlink path) k =
      ((above k).isEmpty || decide (path ∈ above k)) := by
    intro k
    have hsame : ((above k).any fun folder => SandboxRequest.path? (.unlink path) = some folder) =
        decide (path ∈ above k) := by
      rw [Bool.eq_iff_iff]
      simp [SandboxRequest.path?]
    rw [movesAbove, hsame]
    rfl
  induction kept with
  | nil => rfl
  | cons k kept ih =>
    rw [List.any_cons, List.any_cons, List.any_cons, ih, hone]
    cases (above k).isEmpty <;> cases decide (path ∈ above k) <;> simp

/-- No other request is about removing a name. -/
theorem any_movesAbove_eq_false (kept : List Bytes) (hnot : ∀ path, request ≠ .unlink path) :
    kept.any (movesAbove request) = false := by
  rw [List.any_eq_false]
  intro k _
  cases request with
  | unlink path => exact absurd rfl (hnot path)
  | write | read | stat | network => exact Bool.false_ne_true

/-- The rules about withheld paths are about writes. -/
theorem verdictFrom_withheld_of_not (h : SbplOp.covers .fileWrite request = false) (start : Bool)
    (roots withheld : List Bytes) :
    verdictFrom request start (withheld.flatMap (withheldRules roots)) = start := by
  refine LastRule.verdict_of_not (fun rule hrule => ?_) start
  obtain ⟨w, -, hw⟩ := List.mem_flatMap.mp hrule
  have hwrites : ∀ allow root, SbplRule.applies request
      ⟨allow, [.fileWrite], [.subpath root]⟩ = false := by
    intro allow root
    simp [SbplRule.applies, h]
  rcases List.mem_append.mp hw with hw | hw
  · rcases List.mem_cons.mp hw with rfl | hw
    · exact hwrites false w
    · obtain ⟨root, -, rfl⟩ := List.mem_map.mp hw
      exact hwrites true root
  · rw [List.mem_singleton.mp hw, applies_denyUnlinkAbove]
    cases request with
    | unlink path => cases h
    | write | read | stat | network => rfl

/-- **The profile permits what the policy permits**, where at most one path is
withheld; but nothing may be removed when a withheld or hidden path lies right
below the root. -/
theorem seatbelt_exact (hone : policy.withheld.length ≤ 1) :
    (∀ path, sbplVerdict (seatbeltRules policy) (.unlink path) =
      (policy.permits (.unlink path) && !keepsAllNames policy)) ∧
      ∀ request, (∀ path, request ≠ .unlink path) →
        sbplVerdict (seatbeltRules policy) request = policy.permits request := by
  constructor
  · intro path
    have hwithheld := verdictFrom_withheld_le_one hone (.unlink path) path rfl rfl
    have hat := heldAt_path (.unlink path) path rfl
    rw [sbplVerdict_eq]
    simp only [SbplOp.covers, hat, Bool.not_true, Bool.false_or, Bool.true_and, Bool.false_and,
      Bool.not_false, Bool.and_true, Bool.or_false, hwithheld, any_movesAbove_unlink]
    rw [SandboxPolicy.permits, SandboxPolicy.mayUnlink, SandboxPolicy.mayWrite, keepsAllNames,
      List.any_append, List.any_append]
    simp only [Bool.not_or]
    ac_rfl
  · intro request hnot
    have hhidden := any_movesAbove_eq_false policy.hidden hnot
    have hkept := any_movesAbove_eq_false policy.withheld hnot
    rw [sbplVerdict_eq, hhidden, Bool.not_false, Bool.and_true]
    cases request with
    | unlink path => exact absurd rfl (hnot path)
    | write path =>
      have hwithheld := verdictFrom_withheld_le_one hone (.write path) path rfl rfl
      have hat := heldAt_path (.write path) path rfl
      rw [hkept, Bool.not_false, Bool.and_true] at hwithheld
      simp only [SbplOp.covers, hat, Bool.not_true, Bool.false_or, Bool.true_and, Bool.false_and,
        Bool.not_false, Bool.and_true, Bool.or_false, hwithheld]
      rfl
    | read path =>
      have hat := heldAt_path (.read path) path rfl
      rw [verdictFrom_withheld_of_not rfl]
      simp only [SbplOp.covers, hat, Bool.not_false, Bool.true_and, Bool.false_and,
        Bool.and_true, Bool.or_false]
      rfl
    | stat path =>
      have hat := heldAt_path (.stat path) path rfl
      rw [verdictFrom_withheld_of_not rfl]
      simp only [SbplOp.covers, hat, Bool.not_false, Bool.true_and, Bool.false_and,
        Bool.and_true, Bool.or_false]
      rfl
    | network =>
      rw [verdictFrom_withheld_of_not rfl]
      simp only [SbplOp.covers, Bool.not_false, Bool.true_and, Bool.false_and,
        Bool.and_true, Bool.or_false, Bool.not_not, Bool.or_self]
      rfl

end Verdict

/-- The relaxed level on a person's machine. -/
theorem seatbelt_exact_example :
    (buildSandboxPolicy exampleInputs).policy.withheld = [lit "/home/u/.uagent"] ∧
      sbplVerdict (seatbeltRules (buildSandboxPolicy exampleInputs).policy)
          (.write (lit "/home/u/notes")) =
        (buildSandboxPolicy exampleInputs).policy.permits (.write (lit "/home/u/notes")) :=
  ⟨by decide, (seatbelt_exact (by decide)).2 _ fun _ hunlink => by cases hunlink⟩

/-! ### What its text says -/

open Sexp

def SbplFilter.tokens : SbplFilter → List Token
  | .subpath root => [.opening, .word (lit "subpath"), .str root, .closing]
  | .literal path => [.opening, .word (lit "literal"), .str path, .closing]
  | .unixSocket root =>
    [.opening, .word (lit "remote"), .word (lit "unix-socket"), .opening,
      .word (lit "path-prefix"), .str root, .closing, .closing]

def SbplRule.tokens (rule : SbplRule) : List Token :=
  [.opening, .word (if rule.allow then lit "allow" else lit "deny")] ++
    rule.ops.flatMap (fun op => [.word op.name]) ++ rule.filters.flatMap SbplFilter.tokens ++
    [.closing]

theorem closed_filter (filter : SbplFilter) : Closed filter.text filter.tokens := by
  cases filter with
  | subpath root =>
    exact ((closed_of_start (t := [.opening, .word (lit "subpath")]) (by decide)).append
      (closed_quote root)).append (closed_of_start (t := [.closing]) (by decide))
  | literal path =>
    exact ((closed_of_start (t := [.opening, .word (lit "literal")]) (by decide)).append
      (closed_quote path)).append (closed_of_start (t := [.closing]) (by decide))
  | unixSocket root =>
    exact ((closed_of_start (t := [.opening, .word (lit "remote"), .word (lit "unix-socket"),
      .opening, .word (lit "path-prefix")]) (by decide)).append (closed_quote root)).append
        (closed_of_start (t := [.closing, .closing]) (by decide))

theorem closed_space : Closed (lit " ") [] := closed_of_start (by decide)

theorem begins_space (text : Bytes) : Begins (lit " " ++ text) := fun c hc => by
  obtain rfl : ch ' ' = c := Option.some.inj hc
  rfl

set_option maxRecDepth 2000 in
theorem spells_op (op : SbplOp) : Spells (lit " " ++ op.name) [.word op.name] := by
  refine closed_space.append_spells (spells_word ?_ ?_)
  · cases op <;> decide
  · cases op <;> decide

set_option maxRecDepth 2000 in
/-- A rule is a line of its own. -/
theorem closed_rule (rule : SbplRule) : Closed rule.text rule.tokens := by
  have hhead : Spells (if rule.allow then lit "(allow" else lit "(deny")
      [.opening, .word (if rule.allow then lit "allow" else lit "deny")] := by
    have hopen : Closed [ch '('] [.opening] := closed_of_start (by decide)
    have hallow : Spells (lit "allow") [.word (lit "allow")] := spells_word (by decide) (by decide)
    have hdeny : Spells (lit "deny") [.word (lit "deny")] := spells_word (by decide) (by decide)
    split_ifs
    · exact hopen.append_spells hallow
    · exact hopen.append_spells hdeny
  have hops : Spells (rule.ops.flatMap fun op => lit " " ++ op.name)
        (rule.ops.flatMap fun op => [.word op.name]) ∧
      Begins (rule.ops.flatMap fun op => lit " " ++ op.name) :=
    Spells.flatMap fun op _ => ⟨spells_op op, begins_space op.name⟩
  have hfilters : Spells (rule.filters.flatMap fun filter => lit " " ++ filter.text)
        (rule.filters.flatMap SbplFilter.tokens) ∧
      Begins (rule.filters.flatMap fun filter => lit " " ++ filter.text) :=
    Spells.flatMap fun filter _ =>
      ⟨closed_space.append_spells (closed_filter filter).spells, begins_space filter.text⟩
  have hend : Closed (lit ")\n") [.closing] := closed_of_start (by decide)
  have hbegins : Begins (lit ")\n") := fun c hc => by
    obtain rfl : ch ')' = c := Option.some.inj hc
    rfl
  exact ((hhead.append hops.1 hops.2).append hfilters.1 hfilters.2).closed hend hbegins (by decide)

/-- **The text of a profile spells its rules**, one after another and each path
as one string, whatever bytes the paths hold. -/
theorem seatbelt_text (policy : SandboxPolicy) (h : seatbeltProfile policy ≠ []) :
    Sexp.tokens (seatbeltProfile policy) =
      some ([.opening, .word (lit "version"), .word (lit "1"), .closing] ++
        (seatbeltRules policy).flatMap SbplRule.tokens) := by
  have hversion : Closed (lit "(version 1)\n")
      [.opening, .word (lit "version"), .word (lit "1"), .closing] := closed_of_start (by decide)
  have htext : seatbeltProfile policy = profileText policy := by
    unfold seatbeltProfile at h ⊢
    split_ifs at h ⊢ with hlong
    · exact absurd rfl h
    · rfl
  rw [htext]
  exact (hversion.append (Closed.flatMap fun rule _ => closed_rule rule)).tokens_eq

theorem seatbelt_text_example :
    Sexp.tokens (seatbeltProfile { writableRoots := [lit "/a\") (allow default"] }) =
      some ([.opening, .word (lit "version"), .word (lit "1"), .closing] ++
        (seatbeltRules { writableRoots := [lit "/a\") (allow default"] }).flatMap
          SbplRule.tokens) :=
  seatbelt_text _ (by decide)

end UAgent
