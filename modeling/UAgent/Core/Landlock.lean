/-
UAgent/Core/Landlock.lean

How a policy of the sandbox is enforced on Linux (`ApplyLandlock` and
`AddRulesExcept`, src/core/sandbox_posix.cc).  Landlock only grants: a root
that holds a path which must stay closed is granted child by child around it,
along the folders that are there when the command starts.

Main results: no command may do what the policy does not permit
(`landlock_sound`); what the policy permits and is there when the command
starts it may do, and the walk comes to an end (`landlock_complete`).
-/
import UAgent.Core.SandboxPolicy
import Mathlib.Data.Nat.Bitwise

namespace UAgent

open Bytes SlashPath

/-! ### The disk -/

/-- What `fstat` says of a path that is not followed. -/
inductive DiskKind
  | missing
  | link
  | folder
  | other
deriving DecidableEq

/-- What the walk sees of the disk. -/
structure Disk where
  kind : Bytes → DiskKind
  kind_nil : kind [] = .missing
  /-- the entries of a folder but for itself and its parent; nothing where it
  cannot be opened -/
  names : Bytes → Option (List Bytes)
  names_ne_nil : ∀ folder entries, names folder = some entries → [] ∉ entries

/-- The path of an entry. -/
def childOf (root name : Bytes) : Bytes :=
  if root = lit "/" then lit "/" ++ name else root ++ lit "/" ++ name

/-! ### Rights, as the bits of the kernel -/

def kAccessReadFile : Nat := 2 ^ 2
def kAccessRefer : Nat := 2 ^ 13
def kAccessTruncate : Nat := 2 ^ 14
def kAccessResolveUnix : Nat := 2 ^ 16

def kWriteAccess : Nat :=
  2 ^ 1 ||| 2 ^ 4 ||| 2 ^ 5 ||| 2 ^ 6 ||| 2 ^ 7 ||| 2 ^ 8 ||| 2 ^ 9 ||| 2 ^ 10 ||| 2 ^ 11 ||| 2 ^ 12

/-- The rights a rule on a non-directory may carry. -/
def kFileAccess : Nat :=
  2 ^ 0 ||| 2 ^ 1 ||| kAccessReadFile ||| kAccessTruncate ||| 2 ^ 15 ||| kAccessResolveUnix

def kAccessBindTcp : Nat := 2 ^ 0
def kAccessConnectTcp : Nat := 2 ^ 1

/-- The right to write a file. -/
def writeFile : Nat := 1
/-- The right to read one. -/
def readFile : Nat := 2

/-- `HandledFsAccess` -/
def handledFsAccess (abi : Int) : Nat :=
  kWriteAccess ||| (if 2 ≤ abi then kAccessRefer else 0) |||
    (if 3 ≤ abi then kAccessTruncate else 0)

structure LandlockRule where
  path : Bytes
  access : Nat
deriving DecidableEq

structure LandlockRuleset where
  handledFs : Nat
  handledNet : Nat
  rules : List LandlockRule

/-! ### Granting around paths -/

/-- Whether a root holds one of the paths. -/
def holdsSome (root : Bytes) (paths : List Bytes) : Bool := paths.any (sandboxPathWithin · root)

/-- The rule for a root that is granted whole; a rule without rights is none. -/
def ruleAt (disk : Disk) (access : Nat) (root : Bytes) : List LandlockRule :=
  let allowed := if disk.kind root = .folder then access else access &&& kFileAccess
  if allowed = 0 then [] else [⟨root, allowed⟩]

/-- One entry after another, until one fails. -/
def rulesOfAll (next : Bytes → Option (List LandlockRule)) : List Bytes →
    Option (List LandlockRule)
  | [] => some []
  | path :: paths =>
    match next path with
    | none => none
    | some rules => (rulesOfAll next paths).map (rules ++ ·)

/-- One call of `AddRulesExcept`; `next` are the calls it makes. -/
def addRulesAt (disk : Disk) (access : Nat) (skipped : List Bytes)
    (next : Bytes → Option (List LandlockRule)) (root : Bytes) : Option (List LandlockRule) :=
  if heldBy skipped root then some []
  else if disk.kind root = .missing ∨ disk.kind root = .link then some []
  else if holdsSome root skipped = false then some (ruleAt disk access root)
  else
    match disk.names root with
    | none => none
    | some names => rulesOfAll next (names.map (childOf root))

/-- `AddRulesExcept`, so many folders deep.  The kernel takes every rule; the
walk goes no deeper than the skipped paths are long (`addRules_isSome`). -/
def addRules (disk : Disk) (access : Nat) (skipped : List Bytes) :
    Nat → Bytes → Option (List LandlockRule)
  | 0 => addRulesAt disk access skipped fun _ => none
  | depth + 1 => addRulesAt disk access skipped (addRules disk access skipped depth)

/-- The length of the longest of some paths. -/
def longest (paths : List Bytes) : Nat := (paths.map List.length).foldr max 0

/-- `AddRulesExcept` -/
def addRulesExcept (disk : Disk) (access : Nat) (skipped : List Bytes) (root : Bytes) :
    Option (List LandlockRule) :=
  addRules disk access skipped (longest skipped + 1) root

/-! ### The ruleset -/

/-- What is granted around for a writable root: a withheld path that holds the
root is no reason to skip it. -/
def skippedFor (policy : SandboxPolicy) (root : Bytes) : List Bytes :=
  policy.hidden ++ policy.withheld.filter fun path => !sandboxPathWithin root path

/-- The rights to read, handled only where something is closed. -/
def readsOf (policy : SandboxPolicy) (abi : Int) : Nat :=
  if policy.hidden = [] ∧ policy.unreadable = [] then 0
  else kAccessReadFile ||| (if 9 ≤ abi then kAccessResolveUnix else 0)

/-- The rules that grant writes. -/
def writeRules (disk : Disk) (policy : SandboxPolicy) (abi : Int) : Option (List LandlockRule) :=
  rulesOfAll (fun root => addRulesExcept disk (handledFsAccess abi) (skippedFor policy root) root)
    policy.writableRoots

/-- The rules that grant reads. -/
def readRules (disk : Disk) (policy : SandboxPolicy) (abi : Int) : Option (List LandlockRule) :=
  if readsOf policy abi = 0 then some []
  else
    match
      addRulesExcept disk (readsOf policy abi) (policy.hidden ++ policy.unreadable) (lit "/")
    with
    | none => none
    | some rules =>
      (rulesOfAll (addRulesExcept disk (readsOf policy abi) policy.hidden) policy.readable).map
        (rules ++ ·)

/-- `ApplyLandlock`; nothing where the command is not run. -/
def applyLandlock (disk : Disk) (policy : SandboxPolicy) (abi : Int) : Option LandlockRuleset :=
  if abi < 0 then none
  else if policy.allowNetwork = false ∧ abi < 4 then none
  else
    match writeRules disk policy abi, readRules disk policy abi with
    | some writes, some reads =>
      some
        { handledFs := handledFsAccess abi ||| readsOf policy abi
          handledNet := if policy.allowNetwork then 0 else kAccessBindTcp ||| kAccessConnectTcp
          rules := writes ++ reads }
    | _, _ => none

/-- Some rule grants the right. -/
def grants (rules : List LandlockRule) (path : Bytes) (right : Nat) : Bool :=
  rules.any fun rule => rule.access.testBit right && sandboxPathWithin path rule.path

/-- What a command may do under a ruleset.  The kernel decides it, and not a
function of the repository: it lets through a right that is not handled, or that
a rule above the path grants.  Paths are those of the files themselves: no link
and no mount leads to one. -/
def LandlockRuleset.permits (ruleset : LandlockRuleset) (path : Bytes) (right : Nat) : Bool :=
  !ruleset.handledFs.testBit right || grants ruleset.rules path right

/-! ### The walk -/

section Walk

variable {disk : Disk} {access depth right : Nat} {skipped paths : List Bytes} {root path : Bytes}
  {rules : List LandlockRule} {rule : LandlockRule}
  {next : Bytes → Option (List LandlockRule)}

theorem mem_rulesOfAll (h : rulesOfAll next paths = some rules) :
    rule ∈ rules ↔ ∃ path ∈ paths, ∃ own, next path = some own ∧ rule ∈ own := by
  induction paths generalizing rules with
  | nil =>
    rw [rulesOfAll, Option.some_inj] at h
    simp [← h]
  | cons path paths ih =>
    rw [rulesOfAll] at h
    cases hown : next path with
    | none => simp [hown] at h
    | some own =>
      simp only [hown, Option.map_eq_some_iff] at h
      obtain ⟨rest, hrest, rfl⟩ := h
      rw [List.mem_append, ih hrest]
      simp [hown]

/-- Where all are taken, each was. -/
theorem exists_of_rulesOfAll (h : rulesOfAll next paths = some rules) (hpath : path ∈ paths) :
    ∃ own, next path = some own ∧ own ⊆ rules := by
  cases hown : next path with
  | some own =>
    refine ⟨own, rfl, fun rule hrule => ?_⟩
    exact (mem_rulesOfAll h).mpr ⟨path, hpath, own, hown, hrule⟩
  | none =>
    exfalso
    induction paths generalizing rules with
    | nil => cases hpath
    | cons first paths ih =>
      rw [rulesOfAll] at h
      cases hfirst : next first with
      | none => simp [hfirst] at h
      | some own =>
        simp only [hfirst, Option.map_eq_some_iff] at h
        obtain ⟨rest, hrest, -⟩ := h
        rcases List.mem_cons.mp hpath with rfl | hpath
        · rw [hown] at hfirst
          cases hfirst
        · exact ih hrest hpath

theorem rulesOfAll_isSome (h : ∀ path ∈ paths, (next path).isSome = true) :
    (rulesOfAll next paths).isSome = true := by
  induction paths with
  | nil => rfl
  | cons path paths ih =>
    obtain ⟨own, hown⟩ := Option.isSome_iff_exists.mp (h path List.mem_cons_self)
    rw [rulesOfAll, hown, Option.isSome_map]
    exact ih fun p hp => h p (List.mem_cons_of_mem path hp)

theorem mem_ruleAt (h : rule ∈ ruleAt disk access root) :
    rule.path = root ∧ ∀ right, rule.access.testBit right = true → access.testBit right = true := by
  unfold ruleAt at h
  dsimp only at h
  split_ifs at h with hfolder hnone hnone
  · cases h
  · rw [List.mem_singleton.mp h]
    exact ⟨rfl, fun right hright => hright⟩
  · cases h
  · rw [List.mem_singleton.mp h]
    refine ⟨rfl, fun right hright => ?_⟩
    rw [Nat.testBit_and, Bool.and_eq_true] at hright
    exact hright.1

theorem grants_ruleAt (hpath : sandboxPathWithin path root = true)
    (haccess : access.testBit right = true) (hfile : kFileAccess.testBit right = true) :
    grants (ruleAt disk access root) path right = true := by
  have hboth : (access &&& kFileAccess).testBit right = true := by
    rw [Nat.testBit_and, haccess, hfile]
    rfl
  unfold ruleAt
  dsimp only
  split_ifs with hfolder hnone hnone
  · rw [hnone, Nat.zero_testBit] at haccess
    cases haccess
  · simp [grants, haccess, hpath]
  · rw [hnone, Nat.zero_testBit] at hboth
    cases hboth
  · simp [grants, hboth, hpath]

theorem within_childOf (hroot : root ≠ []) (name : Bytes) :
    sandboxPathWithin (childOf root name) root = true := by
  refine sandboxPathWithin_eq_true.mpr ⟨hroot, ?_⟩
  unfold childOf
  split_ifs with hslash
  · rw [hslash]
    exact ⟨name, rfl, .inr (.inl rfl)⟩
  · exact ⟨lit "/" ++ name, List.append_assoc _ _ _, .inr (.inr rfl)⟩

theorem length_childOf {name : Bytes} (hname : name ≠ []) :
    root.length < (childOf root name).length := by
  have hpos := List.length_pos_iff.mpr hname
  have hslash : (lit "/").length = 1 := rfl
  unfold childOf
  split_ifs with hroot
  · rw [hroot, List.length_append]
    omega
  · rw [List.length_append, List.length_append]
    omega

theorem ne_nil_of_kind (h : ¬(disk.kind root = .missing ∨ disk.kind root = .link)) :
    root ≠ [] := by
  rintro rfl
  exact h (.inl disk.kind_nil)

/-- A rule of a walk: it is about a path below the root that neither lies in a
skipped path nor holds one. -/
structure RuleBelow (skipped : List Bytes) (access : Nat) (root : Bytes) (rule : LandlockRule) :
    Prop where
  below : sandboxPathWithin rule.path root = true
  outside : heldBy skipped rule.path = false
  whole : holdsSome rule.path skipped = false
  access : ∀ right, rule.access.testBit right = true → access.testBit right = true

/-- Nothing that a rule grants lies in a skipped path. -/
theorem RuleBelow.not_held (h : RuleBelow skipped access root rule)
    (hpath : sandboxPathWithin path rule.path = true) : heldBy skipped path = false := by
  rw [Bool.eq_false_iff]
  intro hheld
  obtain ⟨kept, hkept, hin⟩ := heldBy_eq_true.mp hheld
  rcases sandboxPathWithin_total hpath hin with hinside | houtside
  · exact absurd (heldBy_eq_true.mpr ⟨kept, hkept, hinside⟩) (Bool.eq_false_iff.mp h.outside)
  · exact absurd (List.any_eq_true.mpr ⟨kept, hkept, houtside⟩) (Bool.eq_false_iff.mp h.whole)

theorem ruleBelow_addRulesAt (h : addRulesAt disk access skipped next root = some rules)
    (hnext : ∀ child own, next child = some own →
      ∀ rule ∈ own, RuleBelow skipped access child rule) :
    ∀ rule ∈ rules, RuleBelow skipped access root rule := by
  intro rule hrule
  unfold addRulesAt at h
  split_ifs at h with hheld hkind hwhole
  · rw [Option.some_inj] at h
    rw [← h] at hrule
    cases hrule
  · rw [Option.some_inj] at h
    rw [← h] at hrule
    cases hrule
  · rw [Option.some_inj] at h
    rw [← h] at hrule
    obtain ⟨hpath, haccess⟩ := mem_ruleAt hrule
    refine ⟨?_, hpath ▸ Bool.eq_false_iff.mpr hheld, hpath ▸ hwhole, haccess⟩
    rw [hpath]
    exact sandboxPathWithin_eq_true.mpr ⟨ne_nil_of_kind hkind, Within.refl root⟩
  · cases hnames : disk.names root with
    | none => simp [hnames] at h
    | some names =>
      simp only [hnames] at h
      obtain ⟨child, hchild, own, hown, hmem⟩ := (mem_rulesOfAll h).mp hrule
      obtain ⟨name, -, rfl⟩ := List.mem_map.mp hchild
      have hbelow := hnext _ own hown rule hmem
      exact { hbelow with
        below := sandboxPathWithin_trans hbelow.below (within_childOf (ne_nil_of_kind hkind) name) }

theorem ruleBelow_addRules (h : addRules disk access skipped depth root = some rules) :
    ∀ rule ∈ rules, RuleBelow skipped access root rule := by
  induction depth generalizing root rules with
  | zero => exact ruleBelow_addRulesAt h fun child own hown => by cases hown
  | succ depth ih => exact ruleBelow_addRulesAt h fun child own hown => ih hown

/-- A path that is there: every folder above it from the root on is, and lists
the next. -/
inductive Present (disk : Disk) : Bytes → Bytes → Prop
  | here {path : Bytes} : disk.kind path ≠ .missing → disk.kind path ≠ .link →
      Present disk path path
  | into {root path name : Bytes} {names : List Bytes} : disk.kind root ≠ .missing →
      disk.kind root ≠ .link → disk.names root = some names → name ∈ names →
        Present disk (childOf root name) path → Present disk root path

theorem Present.kind (h : Present disk root path) :
    ¬(disk.kind root = .missing ∨ disk.kind root = .link) := by
  cases h with
  | here hthere hlink => exact not_or.mpr ⟨hthere, hlink⟩
  | into hthere hlink => exact not_or.mpr ⟨hthere, hlink⟩

theorem Present.within (h : Present disk root path) : sandboxPathWithin path root = true := by
  induction h with
  | here hthere hlink =>
    have hkind := not_or.mpr ⟨hthere, hlink⟩
    exact sandboxPathWithin_eq_true.mpr ⟨ne_nil_of_kind hkind, Within.refl _⟩
  | into hthere hlink _ _ _ ih =>
    exact sandboxPathWithin_trans ih
      (within_childOf (ne_nil_of_kind (not_or.mpr ⟨hthere, hlink⟩)) _)

theorem grants_of_subset {more : List LandlockRule} (h : grants rules path right = true)
    (hsub : rules ⊆ more) : grants more path right = true := by
  obtain ⟨rule, hrule, hgrants⟩ := List.any_eq_true.mp h
  exact List.any_eq_true.mpr ⟨rule, hsub hrule, hgrants⟩

/-- A walk of some depth, and those it makes. -/
theorem addRules_eq (disk : Disk) (access : Nat) (skipped : List Bytes) (depth : Nat) :
    ∃ next, addRules disk access skipped depth = addRulesAt disk access skipped next ∧
      ∀ child own, next child = some own →
        ∃ d, addRules disk access skipped d child = some own := by
  cases depth with
  | zero => exact ⟨fun _ => none, rfl, fun child own hown => by cases hown⟩
  | succ depth => exact ⟨_, rfl, fun child own hown => ⟨depth, hown⟩⟩

/-- A path that is there is granted, where it neither lies in a skipped path nor
holds one. -/
theorem grants_addRules (hpresent : Present disk root path)
    (h : addRules disk access skipped depth root = some rules)
    (houtside : heldBy skipped path = false) (hwhole : holdsSome path skipped = false)
    (haccess : access.testBit right = true) (hfile : kFileAccess.testBit right = true) :
    grants rules path right = true := by
  have hroot : ∀ root, Present disk root path → ∀ next rules,
      addRulesAt disk access skipped next root = some rules →
      holdsSome root skipped = false ∧ rules = ruleAt disk access root ∨
        holdsSome root skipped = true ∧ ∃ names, disk.names root = some names ∧
          rulesOfAll next (names.map (childOf root)) = some rules := by
    intro root hpresent next rules h
    have hheld : ¬heldBy skipped root = true := fun hheld =>
      absurd (heldBy_trans hpresent.within hheld) (Bool.eq_false_iff.mp houtside)
    unfold addRulesAt at h
    rw [if_neg hheld, if_neg hpresent.kind] at h
    split_ifs at h with hholds
    · exact .inl ⟨hholds, (Option.some.inj h).symm⟩
    · cases hnames : disk.names root with
      | none => simp [hnames] at h
      | some names =>
        simp only [hnames] at h
        exact .inr ⟨Bool.not_eq_false _ ▸ hholds, names, rfl, h⟩
  induction hpresent generalizing depth rules with
  | here hthere hlink =>
    have hself : Present disk _ _ := .here hthere hlink
    obtain ⟨next, heq, -⟩ := addRules_eq disk access skipped depth
    rw [heq] at h
    rcases hroot _ hself next rules h with ⟨-, rfl⟩ | ⟨hholds, -⟩
    · exact grants_ruleAt hself.within haccess hfile
    · exact absurd hholds (Bool.eq_false_iff.mp hwhole)
  | into hthere hlink hnames hname hrest ih =>
    have hself := Present.into hthere hlink hnames hname hrest
    obtain ⟨next, heq, hnext⟩ := addRules_eq disk access skipped depth
    rw [heq] at h
    rcases hroot _ hself next rules h with ⟨-, rfl⟩ | ⟨-, names', hnames', hall⟩
    · exact grants_ruleAt hself.within haccess hfile
    · -- the walk goes on into the entry that leads to the path
      rw [hnames] at hnames'
      cases hnames'
      obtain ⟨own, hown, hsub⟩ := exists_of_rulesOfAll hall (List.mem_map_of_mem hname)
      obtain ⟨d, hd⟩ := hnext _ own hown
      exact grants_of_subset (ih hd houtside hwhole hroot) hsub

theorem length_le_longest {paths : List Bytes} (h : path ∈ paths) :
    path.length ≤ longest paths := by
  induction paths with
  | nil => cases h
  | cons first paths ih =>
    show path.length ≤ max first.length (longest paths)
    rcases List.mem_cons.mp h with rfl | h
    · exact le_max_left _ _
    · exact (ih h).trans (le_max_right _ _)

/-- The folders a walk has to look into can be opened: those below its root that hold
a skipped path and are in none. -/
def Opens (disk : Disk) (skipped : List Bytes) (root : Bytes) : Prop :=
  ∀ folder, sandboxPathWithin folder root = true → disk.kind folder ≠ .missing →
    disk.kind folder ≠ .link → heldBy skipped folder = false → holdsSome folder skipped = true →
      (disk.names folder).isSome = true

theorem Opens.childOf (h : Opens disk skipped root) (hroot : root ≠ []) (name : Bytes) :
    Opens disk skipped (childOf root name) := fun folder hin =>
  h folder (sandboxPathWithin_trans hin (within_childOf hroot name))

/-- A root that holds a path is no longer than the longest. -/
theorem length_le_of_holdsSome (h : holdsSome root skipped = true) :
    root.length ≤ longest skipped := by
  obtain ⟨kept, hkept, hin⟩ := List.any_eq_true.mp h
  exact (sandboxPathWithin_eq_true.mp hin).2.isPrefix.length_le.trans (length_le_longest hkept)

theorem addRulesAt_isSome (hopens : Opens disk skipped root)
    (hnext : root ≠ [] → holdsSome root skipped = true → ∀ name, name ≠ [] →
      (next (childOf root name)).isSome = true) :
    (addRulesAt disk access skipped next root).isSome = true := by
  unfold addRulesAt
  split_ifs with hheld hkind hwhole
  · rfl
  · rfl
  · rfl
  · have hholds : holdsSome root skipped = true := Bool.not_eq_false _ ▸ hwhole
    have hroot : root ≠ [] := ne_nil_of_kind hkind
    have hself : sandboxPathWithin root root = true :=
      sandboxPathWithin_eq_true.mpr ⟨hroot, Within.refl root⟩
    rw [not_or] at hkind
    obtain ⟨names, hnames⟩ := Option.isSome_iff_exists.mp
      (hopens root hself hkind.1 hkind.2 (Bool.eq_false_iff.mpr hheld) hholds)
    rw [hnames]
    refine rulesOfAll_isSome fun child hchild => ?_
    obtain ⟨name, hname, rfl⟩ := List.mem_map.mp hchild
    refine hnext hroot hholds name ?_
    rintro rfl
    exact disk.names_ne_nil root names hnames hname

/-- The walk comes to an end before its depth does. -/
theorem addRules_isSome (hopens : Opens disk skipped root)
    (hdepth : longest skipped < root.length + depth) :
    (addRules disk access skipped depth root).isSome = true := by
  induction depth generalizing root with
  | zero =>
    refine addRulesAt_isSome hopens fun _ hholds => ?_
    exact absurd (length_le_of_holdsSome hholds) (Nat.not_le_of_lt hdepth)
  | succ depth ih =>
    refine addRulesAt_isSome hopens fun hroot _ name hname => ih (hopens.childOf hroot name) ?_
    have hlonger : root.length < (childOf root name).length := length_childOf hname
    omega

end Walk

/-! ### Main results -/

section Apply

variable {disk : Disk} {policy : SandboxPolicy} {abi : Int} {ruleset : LandlockRuleset}
  {root path : Bytes} {right : Nat}

/-- Rights to write and rights to read are different ones. -/
theorem readsOf_of_write (hwrite : kWriteAccess.testBit right = true) :
    (readsOf policy abi).testBit right = false := by
  have hnone : ∀ reads, kWriteAccess &&& reads = 0 → reads.testBit right = false := by
    intro reads hreads
    have hbit := congrArg (Nat.testBit · right) hreads
    simpa [Nat.testBit_and, hwrite] using hbit
  unfold readsOf
  split_ifs <;> exact hnone _ (by decide)

theorem handled_of_write (hwrite : kWriteAccess.testBit right = true) :
    (handledFsAccess abi).testBit right = true := by
  rw [handledFsAccess, Nat.testBit_or, Nat.testBit_or, hwrite]
  rfl

/-- The parts of a ruleset. -/
theorem applyLandlock_eq_some (h : applyLandlock disk policy abi = some ruleset) :
    ∃ writes reads, writeRules disk policy abi = some writes ∧
      readRules disk policy abi = some reads ∧
      ruleset.handledFs = handledFsAccess abi ||| readsOf policy abi ∧
      ruleset.rules = writes ++ reads := by
  unfold applyLandlock at h
  by_cases habi : abi < 0
  · rw [if_pos habi] at h
    cases h
  by_cases hnet : policy.allowNetwork = false ∧ abi < 4
  · rw [if_neg habi, if_pos hnet] at h
    cases h
  rw [if_neg habi, if_neg hnet] at h
  cases hwrites : writeRules disk policy abi with
  | none => simp [hwrites] at h
  | some writes =>
    cases hreads : readRules disk policy abi with
    | none => simp [hwrites, hreads] at h
    | some reads =>
      simp only [hwrites, hreads, Option.some_inj] at h
      exact ⟨writes, reads, rfl, rfl, by rw [← h], by rw [← h]⟩

/-- A rule of the writes is about a path below a writable root. -/
theorem ruleBelow_writeRules {writes : List LandlockRule} {rule : LandlockRule}
    (h : writeRules disk policy abi = some writes) (hrule : rule ∈ writes) :
    ∃ root ∈ policy.writableRoots,
      RuleBelow (skippedFor policy root) (handledFsAccess abi) root rule := by
  obtain ⟨root, hroot, own, hown, hmem⟩ := (mem_rulesOfAll h).mp hrule
  exact ⟨root, hroot, ruleBelow_addRules hown rule hmem⟩

/-- One of the reads is about a path that is not closed, or lies in a readable
root and is not hidden. -/
theorem ruleBelow_readRules {reads : List LandlockRule} {rule : LandlockRule}
    (h : readRules disk policy abi = some reads) (hrule : rule ∈ reads) :
    RuleBelow (policy.hidden ++ policy.unreadable) (readsOf policy abi) (lit "/") rule ∨
      ∃ root ∈ policy.readable, RuleBelow policy.hidden (readsOf policy abi) root rule := by
  unfold readRules at h
  split_ifs at h
  · rw [← Option.some.inj h] at hrule
    cases hrule
  cases hslash : addRulesExcept disk (readsOf policy abi) (policy.hidden ++ policy.unreadable)
      (lit "/") with
  | none => simp [hslash] at h
  | some rules =>
    simp only [hslash, Option.map_eq_some_iff] at h
    obtain ⟨inner, hinner, rfl⟩ := h
    rcases List.mem_append.mp hrule with hrule | hrule
    · exact .inl (ruleBelow_addRules hslash rule hrule)
    · obtain ⟨root, hroot, own, hown, hmem⟩ := (mem_rulesOfAll hinner).mp hrule
      exact .inr ⟨root, hroot, ruleBelow_addRules hown rule hmem⟩

theorem access_readRules {reads : List LandlockRule} {rule : LandlockRule}
    (h : readRules disk policy abi = some reads) (hrule : rule ∈ reads)
    (hright : rule.access.testBit right = true) : (readsOf policy abi).testBit right = true := by
  rcases ruleBelow_readRules h hrule with hbelow | ⟨root, -, hbelow⟩
  · exact hbelow.access right hright
  · exact hbelow.access right hright

/-- A right to write is granted below a writable root, around what is hidden
and what is withheld from it. -/
theorem mayWrite_of_grants {writes : List LandlockRule}
    (h : writeRules disk policy abi = some writes) (hgrants : grants writes path right = true) :
    ({ policy with deniedWrites := [] } : SandboxPolicy).mayWrite path = true := by
  obtain ⟨rule, hrule, hright⟩ := List.any_eq_true.mp hgrants
  obtain ⟨-, hpath⟩ := (Bool.and_eq_true _ _).mp hright
  obtain ⟨root, hroot, hbelow⟩ := ruleBelow_writeRules h hrule
  have hin := sandboxPathWithin_trans hpath hbelow.below
  have hnot := hbelow.not_held hpath
  rw [skippedFor, heldBy_append, Bool.or_eq_false_iff] at hnot
  obtain ⟨hhidden, hwithheld⟩ := hnot
  have hheld : heldBy policy.writableRoots path = true := heldBy_eq_true.mpr ⟨root, hroot, hin⟩
  have hinside : (!heldBy policy.withheld path ||
      heldBy (policy.writableRoots.filter (heldBy policy.withheld)) path) = true := by
    rw [Bool.or_eq_true, Bool.not_eq_true']
    by_cases hkept : heldBy policy.withheld path = true
    · -- the withheld path that holds this one holds the root as well
      obtain ⟨kept, hmem, hkept⟩ := heldBy_eq_true.mp hkept
      have hroots : sandboxPathWithin root kept = true := by
        by_contra hout
        have hskipped : kept ∈ policy.withheld.filter fun path => !sandboxPathWithin root path :=
          List.mem_filter.mpr ⟨hmem, by simp [hout]⟩
        exact absurd (heldBy_eq_true.mpr ⟨kept, hskipped, hkept⟩) (Bool.eq_false_iff.mp hwithheld)
      refine .inr (heldBy_eq_true.mpr ⟨root, List.mem_filter.mpr ⟨hroot, ?_⟩, hin⟩)
      exact heldBy_eq_true.mpr ⟨kept, hmem, hroots⟩
    · exact .inl (Bool.eq_false_iff.mpr hkept)
  unfold SandboxPolicy.mayWrite
  rw [hheld, hinside, hhidden]
  rfl

theorem mayRead_of_grants {reads : List LandlockRule} (h : readRules disk policy abi = some reads)
    (hgrants : grants reads path right = true) : policy.mayRead path = true := by
  obtain ⟨rule, hrule, hright⟩ := List.any_eq_true.mp hgrants
  obtain ⟨-, hpath⟩ := (Bool.and_eq_true _ _).mp hright
  unfold SandboxPolicy.mayRead sandboxReadable
  rcases ruleBelow_readRules h hrule with hbelow | ⟨root, hroot, hbelow⟩
  · have hnot := hbelow.not_held hpath
    rw [heldBy_append, Bool.or_eq_false_iff] at hnot
    rw [hnot.1, hnot.2]
    rfl
  · have hheld : heldBy policy.readable path = true :=
      heldBy_eq_true.mpr ⟨root, hroot, sandboxPathWithin_trans hpath hbelow.below⟩
    rw [hheld, hbelow.not_held hpath, Bool.or_true]
    rfl

/-- The right to read is handled where something is closed, and no right to
write goes with it. -/
theorem readFile_of_readsOf (h : readsOf policy abi ≠ 0) :
    (readsOf policy abi).testBit readFile = true := by
  unfold readsOf at h ⊢
  split_ifs at h ⊢ <;> first | exact absurd rfl h | decide

theorem readFile_of_handled : (handledFsAccess abi).testBit readFile = false := by
  unfold handledFsAccess
  split_ifs <;> decide

/-- **No command does what the policy does not permit**: whatever the disk
holds, a right to write is granted only where the policy lets the path be
written, and the right to read only where it lets it be read. -/
theorem landlock_sound (h : applyLandlock disk policy abi = some ruleset) (path : Bytes) :
    (∀ right, kWriteAccess.testBit right = true → ruleset.permits path right = true →
      ({ policy with deniedWrites := [] } : SandboxPolicy).mayWrite path = true) ∧
      (ruleset.permits path readFile = true → policy.mayRead path = true) := by
  obtain ⟨writes, reads, hwrites, hreads, hhandled, hrules⟩ := applyLandlock_eq_some h
  constructor
  · intro right hwrite hpermits
    rw [LandlockRuleset.permits, hhandled, hrules, Nat.testBit_or, handled_of_write hwrite,
      Bool.true_or, Bool.not_true, Bool.false_or] at hpermits
    obtain ⟨rule, hrule, hright⟩ := List.any_eq_true.mp hpermits
    have hmem : rule ∈ writes := (List.mem_append.mp hrule).resolve_right fun hread =>
      absurd (access_readRules hreads hread ((Bool.and_eq_true _ _).mp hright).1)
        (Bool.eq_false_iff.mp (readsOf_of_write hwrite))
    exact mayWrite_of_grants hwrites (List.any_eq_true.mpr ⟨rule, hmem, hright⟩)
  · intro hpermits
    by_cases hnone : readsOf policy abi = 0
    · -- nothing is closed
      unfold readsOf at hnone
      split_ifs at hnone with hopen
      · unfold SandboxPolicy.mayRead sandboxReadable
        rw [hopen.1, hopen.2]
        rfl
      · exact absurd hnone (by decide)
      · exact absurd hnone (by decide)
    · rw [LandlockRuleset.permits, hhandled, hrules, Nat.testBit_or, readFile_of_readsOf hnone,
        Bool.or_true, Bool.not_true, Bool.false_or] at hpermits
      obtain ⟨rule, hrule, hright⟩ := List.any_eq_true.mp hpermits
      have hmem : rule ∈ reads := (List.mem_append.mp hrule).resolve_left fun hwrite => by
        obtain ⟨root, -, hbelow⟩ := ruleBelow_writeRules hwrites hwrite
        have hbit := hbelow.access readFile ((Bool.and_eq_true _ _).mp hright).1
        rw [readFile_of_handled] at hbit
        cases hbit
      exact mayRead_of_grants hreads (List.any_eq_true.mpr ⟨rule, hmem, hright⟩)

/-- A writable folder with a hidden one in it. -/
def exampleDisk : Disk where
  kind path :=
    if path = lit "/w/f" then .other
    else if path = lit "/" ∨ path = lit "/w" ∨ path = lit "/w/k" then .folder
    else .missing
  kind_nil := by decide
  names folder :=
    if folder = lit "/" then some [lit "w"]
    else if folder = lit "/w" then some [lit "k", lit "f"]
    else if folder = lit "/w/k" then some []
    else none
  names_ne_nil folder entries h := by
    split_ifs at h <;> cases h <;> decide

def examplePolicy : SandboxPolicy :=
  { writableRoots := [lit "/w"], hidden := [lit "/w/k"], allowNetwork := false }

/-- The rules go around the hidden folder. -/
theorem landlock_sound_example :
    ∃ ruleset, applyLandlock exampleDisk examplePolicy 9 = some ruleset ∧
      ruleset.rules.map LandlockRule.path = [lit "/w/f", lit "/w/f"] ∧
      (ruleset.permits (lit "/w/k/secret") readFile = true →
        examplePolicy.mayRead (lit "/w/k/secret") = true) := by
  obtain ⟨ruleset, h⟩ : ∃ ruleset, applyLandlock exampleDisk examplePolicy 9 = some ruleset :=
    ⟨_, rfl⟩
  refine ⟨ruleset, h, ?_, (landlock_sound h _).2⟩
  cases h
  decide

theorem holdsSome_mono {few more : List Bytes} (hsub : few ⊆ more)
    (h : holdsSome path few = true) : holdsSome path more = true := by
  obtain ⟨kept, hkept, hin⟩ := List.any_eq_true.mp h
  exact List.any_eq_true.mpr ⟨kept, hsub hkept, hin⟩

theorem addRulesExcept_isSome {access : Nat} {skipped : List Bytes} {root : Bytes}
    (h : Opens disk skipped root) : (addRulesExcept disk access skipped root).isSome = true :=
  addRules_isSome h (by omega)

theorem skippedFor_subset (policy : SandboxPolicy) (root : Bytes) :
    skippedFor policy root ⊆ policy.hidden ++ policy.withheld :=
  List.append_subset.mpr ⟨List.subset_append_left _ _,
    fun _ hkept => List.mem_append_right _ (List.mem_filter.mp hkept).1⟩

/-- The folders above what stays closed can be opened: for the writable roots, for the
whole disk and for the readable roots. -/
structure AllOpen (disk : Disk) (policy : SandboxPolicy) : Prop where
  writable : ∀ root ∈ policy.writableRoots, Opens disk (skippedFor policy root) root
  closed : Opens disk (policy.hidden ++ policy.unreadable) (lit "/")
  readable : ∀ root ∈ policy.readable, Opens disk policy.hidden root

theorem writeRules_isSome (hopens : AllOpen disk policy) :
    (writeRules disk policy abi).isSome = true :=
  rulesOfAll_isSome fun root hroot => addRulesExcept_isSome (hopens.writable root hroot)

theorem readRules_isSome (hopens : AllOpen disk policy) :
    (readRules disk policy abi).isSome = true := by
  unfold readRules
  split_ifs with hnone
  · rfl
  have hslash : (addRulesExcept disk (readsOf policy abi) (policy.hidden ++ policy.unreadable)
      (lit "/")).isSome = true := addRulesExcept_isSome hopens.closed
  obtain ⟨rules, hrules⟩ := Option.isSome_iff_exists.mp hslash
  rw [hrules, Option.isSome_map]
  exact rulesOfAll_isSome fun root hroot => addRulesExcept_isSome (hopens.readable root hroot)

/-- A path that is there below a writable root may be written. -/
theorem grants_writeRules {writes : List LandlockRule}
    (h : writeRules disk policy abi = some writes) (hroot : root ∈ policy.writableRoots)
    (hpresent : Present disk root path) (hhidden : heldBy policy.hidden path = false)
    (hwithheld : ∀ kept ∈ policy.withheld, sandboxPathWithin path kept = true →
      sandboxPathWithin root kept = true)
    (hwhole : holdsSome path (policy.hidden ++ policy.withheld) = false) :
    grants writes path writeFile = true := by
  have houtside : heldBy (skippedFor policy root) path = false := by
    rw [skippedFor, heldBy_append, hhidden, Bool.false_or, Bool.eq_false_iff]
    intro hheld
    obtain ⟨kept, hkept, hin⟩ := heldBy_eq_true.mp hheld
    obtain ⟨hmem, hout⟩ := List.mem_filter.mp hkept
    rw [hwithheld kept hmem hin] at hout
    cases hout
  have hskips : holdsSome path (skippedFor policy root) = false :=
    Bool.eq_false_iff.mpr fun hholds => Bool.eq_false_iff.mp hwhole
      (holdsSome_mono (skippedFor_subset policy root) hholds)
  obtain ⟨own, hown, hsub⟩ := exists_of_rulesOfAll h hroot
  refine grants_of_subset ?_ hsub
  exact grants_addRules hpresent hown houtside hskips (handled_of_write (by decide)) (by decide)

/-- One that is not closed may be read, and so may one in a readable root that
is not hidden. -/
theorem grants_readRules {reads : List LandlockRule} (h : readRules disk policy abi = some reads)
    (hreads : readsOf policy abi ≠ 0) (path : Bytes) :
    (Present disk (lit "/") path → heldBy (policy.hidden ++ policy.unreadable) path = false →
      holdsSome path (policy.hidden ++ policy.unreadable) = false →
        grants reads path readFile = true) ∧
      ∀ root ∈ policy.readable, Present disk root path → heldBy policy.hidden path = false →
        holdsSome path policy.hidden = false → grants reads path readFile = true := by
  have hbit := readFile_of_readsOf hreads
  unfold readRules at h
  rw [if_neg hreads] at h
  cases hslash : addRulesExcept disk (readsOf policy abi) (policy.hidden ++ policy.unreadable)
      (lit "/") with
  | none => simp [hslash] at h
  | some rules =>
    simp only [hslash, Option.map_eq_some_iff] at h
    obtain ⟨inner, hinner, rfl⟩ := h
    constructor
    · intro hpresent houtside hwhole
      exact grants_of_subset (grants_addRules hpresent hslash houtside hwhole hbit (by decide))
        (List.subset_append_left _ _)
    · intro root hroot hpresent houtside hwhole
      obtain ⟨own, hown, hsub⟩ := exists_of_rulesOfAll hinner hroot
      exact grants_of_subset (grants_addRules hpresent hown houtside hwhole hbit (by decide))
        (List.subset_append_of_subset_right _ hsub)

/-- **What is permitted and there can be done**: where the folders on the way can
be opened the command is run, and what is there when it starts it may write and
read as the policy says, but for folders that hold a path which stays closed. -/
theorem landlock_complete (habi : 0 ≤ abi) (hnet : policy.allowNetwork = true ∨ 4 ≤ abi)
    (hopens : AllOpen disk policy) :
    ∃ ruleset, applyLandlock disk policy abi = some ruleset ∧
      (∀ root ∈ policy.writableRoots, ∀ path, Present disk root path →
        heldBy policy.hidden path = false →
        (∀ kept ∈ policy.withheld, sandboxPathWithin path kept = true →
          sandboxPathWithin root kept = true) →
        holdsSome path (policy.hidden ++ policy.withheld) = false →
          ruleset.permits path writeFile = true) ∧
      (∀ path, Present disk (lit "/") path →
        heldBy (policy.hidden ++ policy.unreadable) path = false →
        holdsSome path (policy.hidden ++ policy.unreadable) = false →
          ruleset.permits path readFile = true) ∧
      ∀ root ∈ policy.readable, ∀ path, Present disk root path →
        heldBy policy.hidden path = false → holdsSome path policy.hidden = false →
          ruleset.permits path readFile = true := by
  obtain ⟨writes, hwrites⟩ := Option.isSome_iff_exists.mp (@writeRules_isSome _ _ abi hopens)
  obtain ⟨reads, hreads⟩ := Option.isSome_iff_exists.mp (@readRules_isSome _ _ abi hopens)
  have hruns : ¬(policy.allowNetwork = false ∧ abi < 4) := by
    rintro ⟨hclosed, hold⟩
    rcases hnet with hopen | hnew
    · rw [hclosed] at hopen
      cases hopen
    · omega
  -- reading is not handled where nothing is closed
  have hread : ∀ path, (readsOf policy abi ≠ 0 → grants reads path readFile = true) →
      (!(handledFsAccess abi ||| readsOf policy abi).testBit readFile ||
        grants (writes ++ reads) path readFile) = true := by
    intro path hgrants
    by_cases hnone : readsOf policy abi = 0
    · rw [hnone, Nat.or_zero, readFile_of_handled]
      rfl
    · rw [Bool.or_eq_true]
      exact .inr (grants_of_subset (hgrants hnone) (List.subset_append_right _ _))
  refine ⟨{ handledFs := handledFsAccess abi ||| readsOf policy abi
            handledNet := if policy.allowNetwork then 0 else kAccessBindTcp ||| kAccessConnectTcp
            rules := writes ++ reads }, ?_, ?_, ?_, ?_⟩
  · unfold applyLandlock
    rw [if_neg (Int.not_lt.mpr habi), if_neg hruns, hwrites, hreads]
  · intro root hroot path hpresent hhidden hwithheld hwhole
    rw [LandlockRuleset.permits, Bool.or_eq_true]
    exact .inr (grants_of_subset
      (grants_writeRules hwrites hroot hpresent hhidden hwithheld hwhole)
      (List.subset_append_left _ _))
  · intro path hpresent houtside hwhole
    exact hread path fun hsome =>
      (grants_readRules hreads hsome path).1 hpresent houtside hwhole
  · intro root hroot path hpresent houtside hwhole
    exact hread path fun hsome =>
      (grants_readRules hreads hsome path).2 root hroot hpresent houtside hwhole

/-- A writable folder with a hidden file in it, which no one can open as a folder. -/
def hiddenFileDisk : Disk where
  kind path :=
    if path = lit "/w/f" ∨ path = lit "/w/k" then .other
    else if path = lit "/" ∨ path = lit "/w" then .folder
    else .missing
  kind_nil := by decide
  names folder :=
    if folder = lit "/" then some [lit "w"]
    else if folder = lit "/w" then some [lit "k", lit "f"]
    else none
  names_ne_nil folder entries h := by
    split_ifs at h <;> cases h <;> decide

theorem hiddenFileDisk_opens (root : Bytes) : Opens hiddenFileDisk [lit "/w/k"] root := by
  intro folder _ hthere _ hfree hholds
  have hfolders : folder = lit "/w/f" ∨ folder = lit "/w/k" ∨ folder = lit "/" ∨
      folder = lit "/w" := by
    by_contra hnone
    rw [← or_assoc, not_or] at hnone
    exact hthere ((if_neg hnone.1).trans (if_neg hnone.2))
  rcases hfolders with rfl | rfl | rfl | rfl
  · revert hholds
    decide
  · revert hfree
    decide
  · rfl
  · rfl

theorem landlock_complete_example :
    ∃ ruleset, applyLandlock hiddenFileDisk examplePolicy 9 = some ruleset ∧
      ruleset.permits (lit "/w/f") writeFile = true := by
  have hskipped : skippedFor examplePolicy (lit "/w") = [lit "/w/k"] := by decide
  have hopens : AllOpen hiddenFileDisk examplePolicy :=
    { writable := fun root hroot => by
        rw [List.mem_singleton.mp hroot, hskipped]
        exact hiddenFileDisk_opens (lit "/w")
      closed := hiddenFileDisk_opens (lit "/")
      readable := fun root hroot => absurd hroot List.not_mem_nil }
  have habi : (0 : Int) ≤ 9 := by decide
  obtain ⟨ruleset, h, hwrites, -, -⟩ := landlock_complete habi (.inr (by decide)) hopens
  refine ⟨ruleset, h, hwrites (lit "/w") (by decide) (lit "/w/f") ?_ rfl (by decide) rfl⟩
  have hfile : Present hiddenFileDisk (lit "/w/f") (lit "/w/f") := .here (by decide) (by decide)
  exact .into (by decide) (by decide) rfl (by decide) hfile

end Apply

end UAgent
