/-
UAgent/Core/SandboxPolicy.lean

The policy of the sandbox (src/core/sandbox.cc): which roots a command may
write below, which paths are carved back out of them, and which of the person's
folders are closed to reads.

A policy says of every request whether it is permitted (`permits`).  The lists
of a policy are folded before they are used; folding is the set's alone and
changes no permission (`mayWrite_foldNested`).

Main results: what a composed policy lets a command write and read, told from
what it was composed of (`permits_built`), that the order in which that was
found does not matter (`policy_of_sets`), and that no policy lets a command
write the saved settings (`config_unwritable`).
-/
import UAgent.Base.Folded
import UAgent.Core.SandboxPaths

namespace UAgent

open Bytes SlashPath

/-! ### Policies -/

/-- Whether some root of a list holds the path. -/
def heldBy (roots : List Bytes) (path : Bytes) : Bool := roots.any (sandboxPathWithin path)

/-- `SandboxPolicy` -/
structure SandboxPolicy where
  writableRoots : List Bytes := []
  deniedWrites : List Bytes := []
  withheld : List Bytes := []
  hidden : List Bytes := []
  unreadable : List Bytes := []
  readable : List Bytes := []
  allowNetwork : Bool := true
  readOnly : Bool := false
deriving DecidableEq

/-- `SandboxInputs` -/
structure SandboxInputs where
  workspace : Bytes := []
  globalBase : Bytes
  tmpdir : Bytes := []
  userTmpdir : Bytes := []
  toolCaches : List Bytes := []
  terminalLogs : Bytes := []
  extraRoots : List Bytes := []
  openHome : Bytes := []
  allowNetwork : Bool := true
  readOnly : Bool := false
  closedFolders : List Bytes := []
  readRoots : List Bytes := []
  gitRoots : List Bytes := []
  gitRepository : Bool := false

structure SandboxPolicyResult where
  policy : SandboxPolicy
  rejected : List Bytes

/-- `SandboxWritable` -/
def sandboxWritable (policy : SandboxPolicy) (path : Bytes) : Bool :=
  heldBy policy.writableRoots path

/-- `SandboxReadable` -/
def sandboxReadable (policy : SandboxPolicy) (path : Bytes) : Bool :=
  !heldBy policy.unreadable path || heldBy policy.readable path

/-! ### Composing one -/

/-- `kFixedRoots` -/
def kFixedRoots : List Bytes := [lit "/tmp", lit "/var/tmp", lit "/dev"]

/-- `kMcpConfigFile` -/
def kMcpConfigFile : Bytes := lit ".mcp.json"

/-- The folder of the saved settings. -/
def configFolder (globalBase : Bytes) : Bytes := globalBase ++ lit "/config"

/-- `Acceptable` -/
def acceptable (root globalBase : Bytes) : Bool :=
  root.head? = some (ch '/') && root ≠ lit "/" && !sandboxPathWithin globalBase root &&
    !sandboxPathWithin root (configFolder globalBase)

/-- The roots that were offered. -/
structure Offers where
  accepted : List Bytes := []
  rejected : List Bytes := []

/-- `Offer` -/
def Offers.offer (globalBase : Bytes) (offers : Offers) (root : Bytes) : Offers :=
  if root = [] then offers
  else if acceptable root globalBase then { offers with accepted := offers.accepted ++ [root] }
  else { offers with rejected := offers.rejected ++ [root] }

/-- `SandboxPathWithin`, asked of the parent. -/
def sandboxHolds (parent root : Bytes) : Bool := sandboxPathWithin root parent

/-- `FoldNested` -/
def foldNested (roots withheld : List Bytes) : List Bytes :=
  Folded.fold sandboxHolds (heldBy withheld) (roots.insertionSort (· ≤ ·))

/-- What a command needs to read of the closed folders. -/
def opened (inputs : SandboxInputs) (policy : SandboxPolicy) : List Bytes :=
  inputs.readRoots ++ [inputs.workspace] ++ policy.writableRoots

/-- The folders of the person that stay closed. -/
def closedOf (inputs : SandboxInputs) (policy : SandboxPolicy) : List Bytes :=
  foldNested (policy.unreadable ++ inputs.closedFolders.filter fun entry =>
    !heldBy (opened inputs policy) entry) []

/-- `ConfineReads` -/
def confineReads (inputs : SandboxInputs) (policy : SandboxPolicy) : SandboxPolicy :=
  { policy with
    unreadable := closedOf inputs policy
    readable := foldNested (policy.readable ++
      (opened inputs policy).filter (heldBy (closedOf inputs policy))) [] }

/-- What is offered, in this order. -/
def offered (inputs : SandboxInputs) : List Bytes :=
  if inputs.readOnly then
    [inputs.tmpdir, inputs.userTmpdir] ++ kFixedRoots ++ [inputs.terminalLogs]
  else
    inputs.workspace :: [inputs.tmpdir, inputs.userTmpdir] ++ kFixedRoots ++ inputs.toolCaches ++
      [inputs.terminalLogs] ++ inputs.extraRoots ++ inputs.gitRoots

/-- What has been accepted and rejected of it. -/
def offers (inputs : SandboxInputs) : Offers :=
  (offered inputs).foldl (Offers.offer inputs.globalBase) {}

/-- The home folder, where the level opens it. -/
def homeOf (inputs : SandboxInputs) : List Bytes :=
  if inputs.readOnly ∨ inputs.openHome = [] then [] else [inputs.openHome]

/-- The roots a command may write below. -/
def granted (inputs : SandboxInputs) : List Bytes := (offers inputs).accepted ++ homeOf inputs

/-- The home folder holds ~/.uagent, which is withheld from it. -/
def withheldOf (inputs : SandboxInputs) : List Bytes :=
  if inputs.readOnly ∨ inputs.openHome = [] then [] else [inputs.globalBase]

/-- What carries authority over later sessions and commands. -/
def deniedOf (inputs : SandboxInputs) : List Bytes :=
  if inputs.readOnly ∨ inputs.workspace = [] then []
  else
    (inputs.workspace ++ lit "/" ++ kMcpConfigFile) ::
      if inputs.gitRepository then
        [inputs.workspace ++ lit "/.git/config", inputs.workspace ++ lit "/.git/hooks"]
      else []

/-- `BuildSandboxPolicy` -/
def buildSandboxPolicy (inputs : SandboxInputs) : SandboxPolicyResult where
  policy := confineReads inputs
    { writableRoots := foldNested (granted inputs) (withheldOf inputs)
      deniedWrites := deniedOf inputs
      withheld := withheldOf inputs
      allowNetwork := inputs.allowNetwork
      readOnly := inputs.readOnly }
  rejected := (offers inputs).rejected

/-! ### What a policy permits -/

/-- What a command may ask for; `write` is any write but the removal of a name. -/
inductive SandboxRequest
  | write (path : Bytes)
  | unlink (path : Bytes)
  | read (path : Bytes)
  | stat (path : Bytes)
  | network
deriving DecidableEq

/-- The folders above a path. -/
def above (path : Bytes) : List Bytes :=
  ((List.range path.length).filter fun slash => 1 ≤ slash && path[slash]? = some (ch '/')).map
    path.take

namespace SandboxPolicy

/-- A path is written through a root that holds it; in a withheld folder, only
through one that lies there. -/
def mayWrite (policy : SandboxPolicy) (path : Bytes) : Bool :=
  heldBy policy.writableRoots path &&
    (!heldBy policy.withheld path ||
      heldBy (policy.writableRoots.filter (heldBy policy.withheld)) path) &&
    !heldBy policy.deniedWrites path && !heldBy policy.hidden path

/-- No folder above a withheld or hidden path may be moved. -/
def mayUnlink (policy : SandboxPolicy) (path : Bytes) : Bool :=
  policy.mayWrite path && !(policy.withheld ++ policy.hidden).any fun kept => path ∈ above kept

def mayRead (policy : SandboxPolicy) (path : Bytes) : Bool :=
  sandboxReadable policy path && !heldBy policy.hidden path

def permits (policy : SandboxPolicy) : SandboxRequest → Bool
  | .write path => policy.mayWrite path
  | .unlink path => policy.mayUnlink path
  | .read path => policy.mayRead path
  | .stat path => !heldBy policy.hidden path
  | .network => policy.allowNetwork

end SandboxPolicy

/-! ### Folding -/

variable {roots withheld : List Bytes} {path root parent : Bytes}

theorem sandboxPathWithin_eq_true :
    sandboxPathWithin path root = true ↔ root ≠ [] ∧ Within path root := by
  by_cases h : root = []
  · simp [sandboxPathWithin, h]
  · rw [sandboxPathWithin_iff h]
    simp [h]

theorem heldBy_eq_true :
    heldBy roots path = true ↔ ∃ root ∈ roots, sandboxPathWithin path root = true := by
  simp [heldBy]

theorem heldBy_congr {more : List Bytes} (h : ∀ root, root ∈ roots ↔ root ∈ more) (path : Bytes) :
    heldBy roots path = heldBy more path := by
  rw [Bool.eq_iff_iff, heldBy_eq_true, heldBy_eq_true]
  simp only [h]

theorem heldBy_append (a b : List Bytes) (path : Bytes) :
    heldBy (a ++ b) path = (heldBy a path || heldBy b path) := List.any_append

theorem sandboxPathWithin_trans (h : sandboxPathWithin path root = true)
    (h' : sandboxPathWithin root parent = true) : sandboxPathWithin path parent = true := by
  rw [sandboxPathWithin_eq_true] at h h' ⊢
  exact ⟨h'.1, h.2.trans h'.2⟩

/-- Of two roots that hold a path, one holds the other. -/
theorem sandboxPathWithin_total (h : sandboxPathWithin path root = true)
    (h' : sandboxPathWithin path parent = true) :
    sandboxPathWithin root parent = true ∨ sandboxPathWithin parent root = true := by
  rw [sandboxPathWithin_eq_true] at h h'
  rw [sandboxPathWithin_eq_true, sandboxPathWithin_eq_true]
  exact (h.2.total h'.2).imp (⟨h'.1, ·⟩) (⟨h.1, ·⟩)

/-- A root in a root that holds nothing of a list holds nothing of it. -/
theorem heldBy_trans (h : sandboxPathWithin path root = true) (h' : heldBy roots root = true) :
    heldBy roots path = true := by
  obtain ⟨parent, hparent, hwithin⟩ := heldBy_eq_true.mp h'
  exact heldBy_eq_true.mpr ⟨parent, hparent, sandboxPathWithin_trans h hwithin⟩

/-- A root comes before what it holds. -/
theorem le_of_sandboxHolds (root path : Bytes) (h : sandboxHolds root path = true) :
    root ≤ path := (sandboxPathWithin_eq_true.mp h).2.le

theorem sandboxHolds_trans (a b c : Bytes) (h : sandboxHolds a b = true)
    (h' : sandboxHolds b c = true) : sandboxHolds a c = true := sandboxPathWithin_trans h' h

theorem sorted_insertionSort (roots : List Bytes) :
    (roots.insertionSort (· ≤ ·)).Pairwise (· ≤ ·) := List.pairwise_insertionSort (· ≤ ·) roots

theorem mem_insertionSort : root ∈ roots.insertionSort (· ≤ ·) ↔ root ∈ roots :=
  (List.perm_insertionSort (· ≤ ·) roots).mem_iff

/-- Folding loses no path. -/
theorem heldBy_foldNested (roots withheld : List Bytes) (path : Bytes) :
    heldBy (foldNested roots withheld) path = heldBy roots path := by
  rw [Bool.eq_iff_iff, heldBy_eq_true, heldBy_eq_true, foldNested]
  refine (Folded.covered_fold sandboxHolds_trans).trans ?_
  simp only [mem_insertionSort]
  exact Iff.rfl

/-- What is left of the roots: those that no other holds, and those that lie in
a withheld folder. -/
theorem mem_foldNested :
    root ∈ foldNested roots withheld ↔
      root ∈ roots ∧ (heldBy withheld root = true ∨
        ∀ parent ∈ roots, sandboxPathWithin root parent = true → parent = root) := by
  refine (Folded.mem_fold sandboxHolds_trans le_of_sandboxHolds (fun a b => List.le_antisymm)
    (sorted_insertionSort roots)).trans ?_
  simp only [mem_insertionSort]
  exact Iff.rfl

/-- The result is a function of the set of roots. -/
theorem foldNested_congr {more : List Bytes} (h : ∀ root, root ∈ roots ↔ root ∈ more) :
    foldNested roots withheld = foldNested more withheld := by
  refine Folded.fold_congr sandboxHolds_trans le_of_sandboxHolds (fun a b => List.le_antisymm)
    (sorted_insertionSort roots) (sorted_insertionSort more) fun root => ?_
  rw [mem_insertionSort, mem_insertionSort, h root]

/-- A root inside a withheld folder stays. -/
theorem heldBy_filter_foldNested (roots withheld : List Bytes) (path : Bytes) :
    heldBy ((foldNested roots withheld).filter (heldBy withheld)) path =
      heldBy (roots.filter (heldBy withheld)) path := by
  rw [Bool.eq_iff_iff, heldBy_eq_true, heldBy_eq_true]
  simp only [List.mem_filter, mem_foldNested]
  constructor
  · rintro ⟨root, ⟨⟨hroot, -⟩, hheld⟩, hpath⟩
    exact ⟨root, ⟨hroot, hheld⟩, hpath⟩
  · rintro ⟨root, ⟨hroot, hheld⟩, hpath⟩
    exact ⟨root, ⟨⟨hroot, .inl hheld⟩, hheld⟩, hpath⟩

/-- Folding the writable roots changes no permission. -/
theorem mayWrite_foldNested (policy : SandboxPolicy) (path : Bytes) :
    ({ policy with writableRoots := foldNested policy.writableRoots policy.withheld } :
      SandboxPolicy).mayWrite path = policy.mayWrite path := by
  unfold SandboxPolicy.mayWrite
  rw [heldBy_foldNested, heldBy_filter_foldNested]

/-! ### What a composed policy permits -/

variable {inputs : SandboxInputs}

/-- A root was accepted when it was offered and is acceptable. -/
theorem accepted_foldl (globalBase : Bytes) (roots : List Bytes) (o : Offers) :
    (roots.foldl (Offers.offer globalBase) o).accepted =
      o.accepted ++ roots.filter fun root => root ≠ [] && acceptable root globalBase := by
  induction roots generalizing o with
  | nil => simp
  | cons root roots ih =>
    rw [List.foldl_cons, ih]
    unfold Offers.offer
    by_cases hnil : root = []
    · simp [hnil]
    · by_cases hok : acceptable root globalBase = true <;> simp [hnil, hok]

theorem mem_accepted :
    root ∈ (offers inputs).accepted ↔
      root ∈ offered inputs ∧ root ≠ [] ∧ acceptable root inputs.globalBase = true := by
  rw [offers, accepted_foldl]
  simp

/-- A closed folder that is opened whole need not be closed, and one that is
closed hides only what is not opened in it. -/
theorem reads_confined (closed opened : List Bytes) (path : Bytes) :
    (!heldBy (closed.filter fun entry => !heldBy opened entry) path ||
        heldBy (opened.filter (heldBy (closed.filter fun entry => !heldBy opened entry))) path) =
      (!heldBy closed path || heldBy opened path) := by
  rw [Bool.eq_iff_iff]
  simp only [Bool.or_eq_true, Bool.not_eq_true', Bool.eq_false_iff, ne_eq, heldBy_eq_true,
    List.mem_filter]
  constructor
  · rintro (hopen | ⟨root, ⟨hroot, -⟩, hpath⟩)
    · by_contra hnot
      rw [not_or, not_not] at hnot
      obtain ⟨⟨entry, hentry, hpath⟩, hclosed⟩ := hnot
      refine hopen ⟨entry, ⟨hentry, ?_⟩, hpath⟩
      rintro ⟨root, hroot, hwithin⟩
      exact hclosed ⟨root, hroot, sandboxPathWithin_trans hpath hwithin⟩
    · exact .inr ⟨root, hroot, hpath⟩
  · rintro (hopen | ⟨root, hroot, hpath⟩)
    · left
      rintro ⟨entry, ⟨hentry, -⟩, hwithin⟩
      exact hopen ⟨entry, hentry, hwithin⟩
    · by_contra hnot
      rw [not_or, not_not] at hnot
      obtain ⟨⟨entry, ⟨hentry, hclosed⟩, hwithin⟩, hhidden⟩ := hnot
      rcases sandboxPathWithin_total hpath hwithin with hinside | houtside
      · exact hhidden ⟨root, ⟨hroot, entry, ⟨hentry, hclosed⟩, hinside⟩, hpath⟩
      · exact hclosed ⟨root, hroot, houtside⟩

/-- A command reads what lies in none of the closed folders, or in a
folder that is opened. -/
theorem sandboxReadable_built (inputs : SandboxInputs) (path : Bytes) :
    sandboxReadable (buildSandboxPolicy inputs).policy path =
      (!heldBy inputs.closedFolders path ||
        heldBy (inputs.readRoots ++ [inputs.workspace] ++ granted inputs) path) := by
  set policy : SandboxPolicy :=
    { writableRoots := foldNested (granted inputs) (withheldOf inputs) } with hpolicy
  have hopened : ∀ path, heldBy (opened inputs policy) path =
      heldBy (inputs.readRoots ++ [inputs.workspace] ++ granted inputs) path := by
    intro path
    rw [opened, heldBy_append, heldBy_append _ (granted inputs), hpolicy, heldBy_foldNested]
  have hclosed : ∀ path, heldBy (closedOf inputs policy) path =
      heldBy (inputs.closedFolders.filter fun entry => !heldBy (opened inputs policy) entry) path :=
    heldBy_foldNested _ _
  have hreads : sandboxReadable (buildSandboxPolicy inputs).policy path =
      (!heldBy (closedOf inputs policy) path ||
        heldBy (foldNested ((opened inputs policy).filter (heldBy (closedOf inputs policy))) [])
          path) := rfl
  rw [hreads, heldBy_foldNested, hclosed, funext hclosed, reads_confined, hopened]

/-- A command writes below a root that is granted; in ~/.uagent,
where the home folder is open, only below one that lies there. -/
theorem mayWrite_built (inputs : SandboxInputs) (path : Bytes) :
    (buildSandboxPolicy inputs).policy.mayWrite path = true ↔
      (∃ root ∈ granted inputs, sandboxPathWithin path root = true ∧
        (heldBy (withheldOf inputs) path = true → heldBy (withheldOf inputs) root = true)) ∧
        heldBy (deniedOf inputs) path = false := by
  have hfolded : (buildSandboxPolicy inputs).policy.mayWrite path =
      (heldBy (granted inputs) path && (!heldBy (withheldOf inputs) path ||
        heldBy ((granted inputs).filter (heldBy (withheldOf inputs))) path) &&
          !heldBy (deniedOf inputs) path && !heldBy [] path) :=
    mayWrite_foldNested
      { writableRoots := granted inputs, withheld := withheldOf inputs,
        deniedWrites := deniedOf inputs } path
  rw [hfolded]
  simp only [Bool.and_eq_true, Bool.or_eq_true, Bool.not_eq_true']
  constructor
  · rintro ⟨⟨⟨hheld, hkept⟩, hdenied⟩, -⟩
    refine ⟨?_, hdenied⟩
    rcases hkept with hout | hin
    · obtain ⟨root, hroot, hpath⟩ := heldBy_eq_true.mp hheld
      exact ⟨root, hroot, hpath, fun h => absurd h (Bool.eq_false_iff.mp hout)⟩
    · obtain ⟨root, hroot, hpath⟩ := heldBy_eq_true.mp hin
      obtain ⟨hroot, hinside⟩ := List.mem_filter.mp hroot
      exact ⟨root, hroot, hpath, fun _ => hinside⟩
  · rintro ⟨⟨root, hroot, hpath, hinside⟩, hdenied⟩
    refine ⟨⟨⟨heldBy_eq_true.mpr ⟨root, hroot, hpath⟩, ?_⟩, hdenied⟩, rfl⟩
    by_cases hheld : heldBy (withheldOf inputs) path = true
    · exact .inr (heldBy_eq_true.mpr ⟨root, List.mem_filter.mpr ⟨hroot, hinside hheld⟩, hpath⟩)
    · exact .inl (Bool.eq_false_iff.mpr hheld)

/-- What holds something of the settings and is acceptable is ~/.uagent with a
slash behind it. -/
theorem acceptable_config (hroot : acceptable root inputs.globalBase = true)
    (hin : sandboxPathWithin path root = true)
    (hpath : sandboxPathWithin path (configFolder inputs.globalBase) = true) :
    root = inputs.globalBase ++ lit "/" := by
  simp only [acceptable, Bool.and_eq_true, Bool.not_eq_true'] at hroot
  obtain ⟨⟨-, hbase⟩, hconfig⟩ := hroot
  rcases sandboxPathWithin_total hin hpath with hinside | houtside
  · exact absurd hinside (Bool.eq_false_iff.mp hconfig)
  · obtain ⟨hne, hwithin⟩ := sandboxPathWithin_eq_true.mp houtside
    rcases hwithin.of_entry (by decide) with hholds | hslash | hsame
    · exact absurd (sandboxPathWithin_eq_true.mpr ⟨hne, hholds⟩) (Bool.eq_false_iff.mp hbase)
    · exact hslash
    · have hsame : root = configFolder inputs.globalBase := hsame
      have hself := sandboxPathWithin_eq_true.mpr ⟨hne, Within.refl root⟩
      rw [← hsame] at hconfig
      exact absurd hself (Bool.eq_false_iff.mp hconfig)

/-- **Permissions of a composed policy**: a command writes below a root that is
granted, unless the path is denied or lies in ~/.uagent and the root does not,
and reads what lies in no closed folder or in one that is opened. -/
theorem permits_built (inputs : SandboxInputs) (path : Bytes) :
    ((buildSandboxPolicy inputs).policy.permits (.write path) = true ↔
      (∃ root ∈ granted inputs, sandboxPathWithin path root = true ∧
        (heldBy (withheldOf inputs) path = true → heldBy (withheldOf inputs) root = true)) ∧
        heldBy (deniedOf inputs) path = false) ∧
      ((buildSandboxPolicy inputs).policy.permits (.read path) = true ↔
        heldBy inputs.closedFolders path = false ∨
          ∃ root ∈ inputs.readRoots ++ [inputs.workspace] ++ granted inputs,
            sandboxPathWithin path root = true) := by
  refine ⟨mayWrite_built inputs path, ?_⟩
  have hread : (buildSandboxPolicy inputs).policy.permits (.read path) =
      (sandboxReadable (buildSandboxPolicy inputs).policy path && !heldBy [] path) := rfl
  rw [hread, sandboxReadable_built, Bool.and_eq_true, Bool.or_eq_true, Bool.not_eq_true',
    heldBy_eq_true]
  exact and_iff_left rfl

/-- **Sets**: the policy does not depend on the order in which roots and
folders were found, nor on how often. -/
theorem policy_of_sets (inputs : SandboxInputs)
    {toolCaches extraRoots gitRoots closedFolders readRoots : List Bytes}
    (hcaches : ∀ root, root ∈ inputs.toolCaches ↔ root ∈ toolCaches)
    (hextra : ∀ root, root ∈ inputs.extraRoots ↔ root ∈ extraRoots)
    (hgit : ∀ root, root ∈ inputs.gitRoots ↔ root ∈ gitRoots)
    (hclosed : ∀ root, root ∈ inputs.closedFolders ↔ root ∈ closedFolders)
    (hread : ∀ root, root ∈ inputs.readRoots ↔ root ∈ readRoots) :
    (buildSandboxPolicy inputs).policy =
      (buildSandboxPolicy
        { inputs with toolCaches, extraRoots, gitRoots, closedFolders, readRoots }).policy := by
  set other : SandboxInputs :=
    { inputs with toolCaches, extraRoots, gitRoots, closedFolders, readRoots } with hother
  have hoffered : ∀ root, root ∈ offered inputs ↔ root ∈ offered other := by
    intro root
    unfold offered
    rw [hother]
    split_ifs
    · exact Iff.rfl
    · simp only [List.mem_append, List.mem_cons, hcaches, hextra, hgit]
  have hgranted : ∀ root, root ∈ granted inputs ↔ root ∈ granted other := by
    intro root
    rw [granted, granted, List.mem_append, List.mem_append, mem_accepted, mem_accepted, hoffered]
    exact Iff.rfl
  have hroots : foldNested (granted inputs) (withheldOf inputs) =
      foldNested (granted other) (withheldOf other) := foldNested_congr hgranted
  set policy : SandboxPolicy :=
    { writableRoots := foldNested (granted inputs) (withheldOf inputs)
      deniedWrites := deniedOf inputs
      withheld := withheldOf inputs
      allowNetwork := inputs.allowNetwork
      readOnly := inputs.readOnly } with hpolicy
  have hopened : ∀ root, root ∈ opened inputs policy ↔ root ∈ opened other policy := by
    intro root
    simp only [opened, List.mem_append, hread, hother]
  have hclose : closedOf inputs policy = closedOf other policy := by
    refine foldNested_congr fun entry => ?_
    simp only [List.mem_append, List.mem_filter, heldBy_congr hopened]
    rw [hclosed]
  have hopen : foldNested (policy.readable ++
        (opened inputs policy).filter (heldBy (closedOf other policy))) [] =
      foldNested (policy.readable ++
        (opened other policy).filter (heldBy (closedOf other policy))) [] := by
    refine foldNested_congr fun root => ?_
    simp only [List.mem_append, List.mem_filter, hopened]
  have hconfined : confineReads inputs policy = confineReads other policy := by
    rw [confineReads, confineReads, hclose, hopen]
  rw [buildSandboxPolicy, buildSandboxPolicy, ← hroots]
  exact hconfined

theorem policy_of_sets_example :
    (buildSandboxPolicy
        { globalBase := lit "/h/.uagent", extraRoots := [lit "/a", lit "/b"] }).policy =
      (buildSandboxPolicy
        { globalBase := lit "/h/.uagent", extraRoots := [lit "/b", lit "/a", lit "/b"] }).policy :=
  policy_of_sets { globalBase := lit "/h/.uagent", extraRoots := [lit "/a", lit "/b"] }
    (fun _ => Iff.rfl) (fun root => by simp; tauto) (fun _ => Iff.rfl) (fun _ => Iff.rfl)
    (fun _ => Iff.rfl)

/-- What is offered on a person's machine. -/
def exampleInputs : SandboxInputs where
  workspace := lit "/home/u/work"
  globalBase := lit "/home/u/.uagent"
  toolCaches := [lit "/home/u/.cache"]
  terminalLogs := lit "/home/u/.uagent/terminals/logs"
  extraRoots := [lit "/home/u/.uagent/config", lit "/home/u"]
  openHome := lit "/home/u"
  closedFolders := [lit "/home/u/Documents"]

/-- **The saved settings cannot be written**, whatever is offered. -/
theorem config_unwritable (hsome : inputs.globalBase ≠ [])
    (hslash : inputs.globalBase ++ lit "/" ∉ offered inputs)
    (hhome : sandboxPathWithin inputs.openHome inputs.globalBase = false)
    (hpath : sandboxPathWithin path (configFolder inputs.globalBase) = true) :
    (buildSandboxPolicy inputs).policy.mayWrite path = false := by
  rw [Bool.eq_false_iff]
  intro hwrites
  obtain ⟨⟨root, hroot, hin, hinside⟩, -⟩ := (mayWrite_built inputs path).mp hwrites
  rcases List.mem_append.mp hroot with haccepted | hopen
  · obtain ⟨hoffered, -, hok⟩ := mem_accepted.mp haccepted
    exact hslash (acceptable_config hok hin hpath ▸ hoffered)
  · -- the home folder is no way into ~/.uagent
    unfold homeOf at hopen
    split_ifs at hopen with hnone
    · cases hopen
    rw [List.mem_singleton] at hopen
    subst hopen
    have hwithheld : ∀ path, heldBy (withheldOf inputs) path =
        sandboxPathWithin path inputs.globalBase := by
      intro path
      rw [withheldOf, if_neg hnone]
      exact Bool.or_false _
    rw [hwithheld, hwithheld, hhome] at hinside
    have hbase : sandboxPathWithin path inputs.globalBase = true := by
      obtain ⟨-, hwithin⟩ := sandboxPathWithin_eq_true.mp hpath
      exact sandboxPathWithin_eq_true.mpr
        ⟨hsome, hwithin.trans ⟨lit "/config", rfl, .inr (.inr rfl)⟩⟩
    exact absurd (hinside hbase) Bool.false_ne_true

theorem config_unwritable_example :
    sandboxWritable (buildSandboxPolicy exampleInputs).policy
        (lit "/home/u/.uagent/config/settings.json") = true ∧
      (buildSandboxPolicy exampleInputs).policy.mayWrite
        (lit "/home/u/.uagent/config/settings.json") = false :=
  ⟨by decide, config_unwritable (by decide) (by decide) (by decide) (by decide)⟩

end UAgent
