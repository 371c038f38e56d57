/-
UAgent/App/AssetStore.lean

The commit handshake of session attachments (`AssetStore::Claim` and `Unclaim`,
src/app/asset_store.cc): a message claims assets, their records are written as
committed one by one, and an error, or a dispatch that fails later, undoes
them.

The undo writes from the copies made for the claim, so it leaves "not
committed" and the claim's name behind, whatever was there before.
`claim_undone_iff` says exactly which calls leave every record as it was.
-/
import UAgent.Base.JsonText
import UAgent.Base.Overwrites
import UAgent.Core.Json
import UAgent.App.SessionMove

namespace UAgent

open Bytes Json Overwrites

/-! ### Limits and checks -/

def kUploadCount : Nat := 8
def kCommandBytes : Nat := 512 * 1024
def kAssetNameChars : Nat := 128
def kOctetStreamMime : Bytes := lit "application/octet-stream"

/-- The rows of `kTypes` for images. -/
def kImageTypes : List (Bytes × Bytes) :=
  [(lit ".png", lit "image/png"), (lit ".jpg", lit "image/jpeg"), (lit ".jpeg", lit "image/jpeg"),
    (lit ".webp", lit "image/webp"), (lit ".gif", lit "image/gif"), (lit ".heic", lit "image/heic"),
    (lit ".heif", lit "image/heif"), (lit ".svg", lit "image/svg+xml")]

def imageExtension (mime : Bytes) : Bytes :=
  match kImageTypes.find? (·.2 = mime) with
  | some row => row.1
  | none => []

def opaqueId (value : Bytes) : Bool :=
  16 ≤ value.length && value.length ≤ 64 && value.all (· ∈ lit "0123456789abcdef")

/-- No path separators, no control bytes, bounded length. -/
def validAssetName (name : Bytes) : Bool :=
  name.length ≤ kAssetNameChars && ch '/' ∉ name && ch '\\' ∉ name &&
    name.all fun code => !(code < 32 || code = 127)

/-! ### The records on disk -/

/-- What `ReadRegularFile` and `json::parse` make of the file at a path; nothing
where it refuses one. -/
abbrev AssetFiles := Bytes → Option Json

/-- How the write of a record ends: `WritePrivateFile` may fail before the file
is replaced, or after, when its folder cannot be synced. -/
inductive RecordWrite
  | done
  | failed
  | unsynced
deriving DecidableEq

/-- A claimed record: its file, and its content under the claim's name. -/
structure AssetRecord where
  path : Bytes
  asset : Json
deriving DecidableEq

/-- `asset["committed"] = committed`. -/
def AssetRecord.kept (record : AssetRecord) (committed : Bool) : Json :=
  record.asset.set (lit "committed") (.bool committed)

def AssetRecord.write (record : AssetRecord) (committed : Bool) (ending : RecordWrite)
    (files : AssetFiles) : AssetFiles :=
  if ending = .failed then files else overwrite files (record.path, some (record.kept committed))

/-- What the outside does during a claim. -/
structure AssetIo where
  /-- `EnsurePrivateDirectory` -/
  folderSafe : Bool := true
  /-- What `gate` returns. -/
  blocked : Bytes := []
  claimWrites : Nat → RecordWrite := fun _ => .done
  undoWrites : Nat → RecordWrite := fun _ => .done

/-! ### Claim and Unclaim -/

/-- Claims are bare asset ids, or `{id, name}` objects with the composer's
display name. -/
def claimedId : Json → Bytes
  | .str id => id
  | claim => jsonValueStr claim (lit "id") []

def claimedName (claim : Json) : Bytes :=
  if claim.isObject then jsonValueStr claim (lit "name") [] else []

def namedExtension (asset : Json) : Bytes := imageExtension (jsonValueStr asset (lit "mime") [])

def assetExtension (asset : Json) : Bytes :=
  jsonValueStr asset (lit "extension") (namedExtension asset)

def validExtension (asset : Json) : Bool :=
  !((assetExtension asset).isEmpty ||
    (assetExtension asset ≠ lit ".data" && assetExtension asset ≠ namedExtension asset))

def displayed (asset : Json) (display : Bytes) : Json :=
  if display.isEmpty then asset else asset.set (lit "name") (.str display)

/-- What goes into the command. -/
def resolvedAttachment (stem assetId extension : Bytes) (asset : Json) : Json :=
  .ofFields
    [(lit "path", .str (stem ++ extension)),
      (lit "id", .str assetId),
      (lit "name", .str (jsonValueStr asset (lit "name") (lit "attachment" ++ extension))),
      (lit "mime", .str (jsonValueStr asset (lit "mime") kOctetStreamMime)),
      (lit "image", .bool (jsonValueBool asset (lit "image") (decide (extension ≠ lit ".data"))))]

/-- One round of the first loop of `Claim`: the record, and the attachment that
goes into the command. -/
def resolveClaim (files : AssetFiles) (sessionPath : Bytes) (claim : Json) :
    Except Bytes (AssetRecord × Json) :=
  let stem := sessionPath ++ kSessionAssetsSuffix ++ lit "/" ++ claimedId claim
  if !opaqueId (claimedId claim) then .error (lit "invalid asset ID")
  else if !(claimedName claim).isEmpty && !validAssetName (claimedName claim) then
    .error (lit "invalid attachment name")
  else
    match files (stem ++ lit ".json") with
    | none => .error (lit "attachment is unavailable")
    | some record =>
      if !validExtension record then .error (lit "invalid file asset")
      else
        let asset := displayed record (claimedName claim)
        .ok (⟨stem ++ lit ".json", asset⟩,
          resolvedAttachment stem (claimedId claim) (assetExtension record) asset)

/-- `command["attachments"].push_back(attachment)`. -/
def attach (command attachment : Json) : Json :=
  let attachments := ((command.get? (lit "attachments")).map items).getD []
  command.set (lit "attachments") (.arr (attachments ++ [attachment]))

/-- The first loop of `Claim`: the records, and the command with the
attachments; a refusal leaves those of the earlier rounds in it. -/
def resolveClaims (files : AssetFiles) (sessionPath : Bytes) :
    List Json → Json → Except Bytes (List AssetRecord) × Json
  | [], command => (.ok [], command)
  | claim :: ids, command =>
    match resolveClaim files sessionPath claim with
    | .error error => (.error error, command)
    | .ok (record, attachment) =>
      let (claims, command) := resolveClaims files sessionPath ids (attach command attachment)
      (claims.map (record :: ·), command)

/-- `Claim` up to its first write: the records, and the command as it is
then. -/
def claimable [DoubleText] (io : AssetIo) (files : AssetFiles) (sessionPath : Bytes)
    (ids : List Json) (command : Json) : Except Bytes (List AssetRecord) × Json :=
  if ids.length > kUploadCount then (.error (lit "too many attachments"), command)
  else if !io.folderSafe then (.error (lit "unsafe asset directory"), command)
  else
    let (claims, command) := resolveClaims files sessionPath ids command
    match claims with
    | .error error => (.error error, command)
    | .ok claims =>
      if !io.blocked.isEmpty then (.error io.blocked, command)
      else if (dump command).length > kCommandBytes then
        (.error (lit "message and resolved attachments exceed the command limit"), command)
      else (.ok claims, command)

/-- The second loop of `Claim`: what the disk holds after it, and how many
records were committed; the loop ends with the first write that fails. -/
def commitClaims (writes : Nat → RecordWrite) : Nat → AssetFiles → List AssetRecord → AssetFiles × Nat
  | _, files, [] => (files, 0)
  | i, files, claim :: claims =>
    let files := claim.write true (writes i) files
    if writes i = .done then
      let (files, committed) := commitClaims writes (i + 1) files claims
      (files, committed + 1)
    else (files, 0)

/-- `UnclaimLocked`, from the record of index `i` on. -/
def unclaimLocked (writes : Nat → RecordWrite) : Nat → AssetFiles → List AssetRecord → AssetFiles
  | _, files, [] => files
  | i, files, claim :: claims => unclaimLocked writes (i + 1) (claim.write false (writes i) files) claims

structure ClaimResult where
  error : Bytes
  files : AssetFiles
  command : Json
  receipt : List AssetRecord := []

namespace AssetStore

variable [DoubleText]

def claim (io : AssetIo) (files : AssetFiles) (sessionPath : Bytes) (ids : List Json)
    (command : Json) : ClaimResult :=
  let (claims, command) := claimable io files sessionPath ids command
  match claims with
  | .error error => { error, files, command }
  | .ok claims =>
    let (written, committed) := commitClaims io.claimWrites 0 files claims
    if committed < claims.length then
      { error := lit "cannot claim attachment",
        files := unclaimLocked io.undoWrites 0 written (claims.take committed), command }
    else { error := [], files := written, command, receipt := claims }

def unclaim (io : AssetIo) (files : AssetFiles) (receipt : List AssetRecord) : AssetFiles :=
  unclaimLocked io.undoWrites 0 files receipt

/-- A claim that comes to nothing: it fails, or its receipt is given back when
the worker does not take the command. -/
def claimUndone (io : AssetIo) (files : AssetFiles) (sessionPath : Bytes) (ids : List Json)
    (command : Json) : AssetFiles :=
  let result := claim io files sessionPath ids command
  if result.error.isEmpty then unclaim io result.files result.receipt else result.files

end AssetStore

/-! ### The writes of a call -/

section Writes

variable (writes : Nat → RecordWrite)

/-- The writes of the second loop that reach the disk, each with the flag it
sets. -/
def claimedWrites : Nat → List AssetRecord → List (Bytes × Json × Bool)
  | _, [] => []
  | i, claim :: claims =>
    if writes i = .failed then []
    else (claim.path, claim.asset, true) ::
      if writes i = .done then claimedWrites (i + 1) claims else []

/-- The records it commits. -/
def committedClaims : Nat → List AssetRecord → List AssetRecord
  | _, [] => []
  | i, claim :: claims => if writes i = .done then claim :: committedClaims (i + 1) claims else []

/-- The writes of the undo that reach the disk. -/
def undoneWrites : Nat → List AssetRecord → List (Bytes × Json × Bool)
  | _, [] => []
  | i, claim :: claims =>
    if writes i = .failed then undoneWrites (i + 1) claims
    else (claim.path, claim.asset, false) :: undoneWrites (i + 1) claims

/-- What is written: the record with its flag. -/
def writtenRecord (w : Json × Bool) : Option Json := some (w.1.set (lit "committed") (.bool w.2))

variable {writes} {files : AssetFiles}

theorem commitClaims_spec (i : Nat) (claims : List AssetRecord) :
    commitClaims writes i files claims =
      (((claimedWrites writes i claims).map fun w => (w.1, writtenRecord w.2)).foldl overwrite files,
        (committedClaims writes i claims).length) := by
  induction claims generalizing i files with
  | nil => rfl
  | cons claim claims ih =>
    cases hwrite : writes i with
    | done =>
      simp [commitClaims, claimedWrites, committedClaims, hwrite, ih, AssetRecord.write,
        AssetRecord.kept, writtenRecord]
    | failed =>
      simp [commitClaims, claimedWrites, committedClaims, hwrite, AssetRecord.write]
    | unsynced =>
      simp [commitClaims, claimedWrites, committedClaims, hwrite, AssetRecord.write,
        AssetRecord.kept, writtenRecord]

theorem prefix_committedClaims (i : Nat) (claims : List AssetRecord) :
    committedClaims writes i claims <+: claims := by
  induction claims generalizing i with
  | nil => exact List.prefix_refl []
  | cons claim claims ih =>
    rw [committedClaims]
    split_ifs
    · exact (List.prefix_cons_inj claim).mpr (ih (i + 1))
    · exact List.nil_prefix

theorem unclaimLocked_spec (i : Nat) (claims : List AssetRecord) :
    unclaimLocked writes i files claims =
      ((undoneWrites writes i claims).map fun w => (w.1, writtenRecord w.2)).foldl overwrite files := by
  induction claims generalizing i files with
  | nil => rfl
  | cons claim claims ih =>
    rw [unclaimLocked, undoneWrites, ih, AssetRecord.write]
    split_ifs <;> rfl

end Writes

/-- All writes of a claim that comes to nothing, in their order. -/
def callWrites (io : AssetIo) (claims : List AssetRecord) : List (Bytes × Json × Bool) :=
  claimedWrites io.claimWrites 0 claims ++
    undoneWrites io.undoWrites 0 (committedClaims io.claimWrites 0 claims)

section Undone

variable [DoubleText] {io : AssetIo} {files : AssetFiles} {sessionPath : Bytes} {ids : List Json}
  {command : Json}

/-- A call that is refused before its first write touches nothing. -/
theorem claimUndone_of_error {error : Bytes}
    (h : (claimable io files sessionPath ids command).1 = .error error) :
    AssetStore.claimUndone io files sessionPath ids command = files := by
  simp only [AssetStore.claimUndone, AssetStore.claim, h]
  split_ifs <;> rfl

theorem claimUndone_of_ok {claims : List AssetRecord}
    (h : (claimable io files sessionPath ids command).1 = .ok claims) :
    AssetStore.claimUndone io files sessionPath ids command =
      ((callWrites io claims).map fun w => (w.1, writtenRecord w.2)).foldl overwrite files := by
  have htake := List.prefix_iff_eq_take.mp (@prefix_committedClaims io.claimWrites 0 claims)
  simp only [AssetStore.claimUndone, AssetStore.claim, h, commitClaims_spec, callWrites,
    List.map_append, List.foldl_append]
  split_ifs with hshort herror herror
  · exact absurd herror (show ¬(lit "cannot claim attachment").isEmpty = true by decide)
  · rw [unclaimLocked_spec, ← htake]
  · rw [AssetStore.unclaim, unclaimLocked_spec]
    rw [List.take_of_length_le (not_lt.mp hshort)] at htake
    rw [htake]
  · exact absurd rfl herror

end Undone

/-! ### Put back or not -/

/-- The record that a write found is the one it leaves: it has the claim's name
and the flag that is set. -/
def AsFound (files : AssetFiles) (w : Bytes × Json × Bool) : Prop :=
  files w.1 = some w.2.1 ∧ w.2.1.get? (lit "committed") = some (.bool w.2.2)

/-- A record as a claim takes it: found on disk, perhaps under another name. -/
def Taken (files : AssetFiles) (path : Bytes) (asset : Json) : Prop :=
  ∃ record, files path = some record ∧ record.isObject = true ∧
    (asset = record ∨ ∃ display, asset = record.set (lit "name") (.str display))

/-- Writing what a member holds changes nothing. -/
theorem set_of_get? {j v : Json} {key : Bytes} (h : j.Keyed) (hv : j.get? key = some v) :
    j.set key v = j := by
  obtain ⟨fields, rfl, hsorted⟩ := h
  rw [set_obj, Assoc.insert_of_mem hsorted (Assoc.mem_of_lookup hv)]

section Taken

variable {files : AssetFiles}

/-- What is no object has no extension of its own, and none by its type. -/
theorem isObject_of_validExtension {record : Json} (h : validExtension record = true) :
    record.isObject = true := by
  have hnone : imageExtension [] = [] := by decide
  cases record with
  | obj fields => rfl
  | _ => simp [validExtension, assetExtension, namedExtension, jsonValueStr, get?, hnone] at h

theorem resolveClaim_taken {sessionPath : Bytes} {claim : Json} {resolved : AssetRecord × Json}
    (h : resolveClaim files sessionPath claim = .ok resolved) :
    Taken files resolved.1.path resolved.1.asset := by
  simp only [resolveClaim] at h
  split_ifs at h
  split at h
  · cases h
  · next record hfile =>
    split_ifs at h with hextension
    cases h
    refine ⟨record, hfile, isObject_of_validExtension (by simpa using hextension), ?_⟩
    show displayed record (claimedName claim) = record ∨ ∃ display, displayed record _ = _
    rw [displayed]
    split_ifs
    · exact .inl rfl
    · exact .inr ⟨_, rfl⟩

theorem resolveClaims_taken {sessionPath : Bytes} {ids : List Json} {command : Json}
    {claims : List AssetRecord}
    (h : (resolveClaims files sessionPath ids command).1 = .ok claims) :
    ∀ claim ∈ claims, Taken files claim.path claim.asset := by
  induction ids generalizing command claims with
  | nil =>
    cases h
    exact fun claim hclaim => absurd hclaim List.not_mem_nil
  | cons id ids ih =>
    rw [resolveClaims] at h
    cases hfirst : resolveClaim files sessionPath id with
    | error error =>
      rw [hfirst] at h
      cases h
    | ok first =>
      rw [hfirst] at h
      cases hrest : (resolveClaims files sessionPath ids (attach command first.2)).1 with
      | error error =>
        have hnone : Except.map (first.1 :: ·)
            (resolveClaims files sessionPath ids (attach command first.2)).1 = .ok claims := h
        rw [hrest] at hnone
        cases hnone
      | ok rest =>
        have hsome : Except.map (first.1 :: ·)
            (resolveClaims files sessionPath ids (attach command first.2)).1 = .ok claims := h
        rw [hrest] at hsome
        cases hsome
        exact List.forall_mem_cons.mpr ⟨resolveClaim_taken hfirst, ih hrest⟩

theorem claimable_taken [DoubleText] {io : AssetIo} {sessionPath : Bytes} {ids : List Json}
    {command : Json} {claims : List AssetRecord}
    (h : (claimable io files sessionPath ids command).1 = .ok claims) :
    ∀ claim ∈ claims, Taken files claim.path claim.asset := by
  cases hresolve : (resolveClaims files sessionPath ids command).1 with
  | error error =>
    simp only [claimable, hresolve] at h
    split_ifs at h
  | ok resolved =>
    simp only [claimable, hresolve] at h
    split_ifs at h
    cases h
    exact resolveClaims_taken hresolve

theorem mem_claimedWrites {writes : Nat → RecordWrite} {i : Nat} {claims : List AssetRecord}
    {w : Bytes × Json × Bool} (h : w ∈ claimedWrites writes i claims) :
    ∃ claim ∈ claims, w.1 = claim.path ∧ w.2.1 = claim.asset := by
  induction claims generalizing i with
  | nil => cases h
  | cons claim claims ih =>
    rw [claimedWrites] at h
    split_ifs at h with hfailed hdone
    · cases h
    · rcases List.mem_cons.mp h with rfl | h
      · exact ⟨claim, List.mem_cons_self, rfl, rfl⟩
      · obtain ⟨claim', hmem, heq⟩ := ih h
        exact ⟨claim', List.mem_cons_of_mem claim hmem, heq⟩
    · rw [List.mem_singleton.mp h]
      exact ⟨claim, List.mem_cons_self, rfl, rfl⟩

theorem mem_undoneWrites {writes : Nat → RecordWrite} {i : Nat} {claims : List AssetRecord}
    {w : Bytes × Json × Bool} (h : w ∈ undoneWrites writes i claims) :
    ∃ claim ∈ claims, w.1 = claim.path ∧ w.2.1 = claim.asset := by
  induction claims generalizing i with
  | nil => cases h
  | cons claim claims ih =>
    have hlater : w ∈ undoneWrites writes (i + 1) claims →
        ∃ c ∈ claim :: claims, w.1 = c.path ∧ w.2.1 = c.asset := fun hw => by
      obtain ⟨claim', hmem, heq⟩ := ih hw
      exact ⟨claim', List.mem_cons_of_mem claim hmem, heq⟩
    rw [undoneWrites] at h
    split_ifs at h
    · exact hlater h
    · rcases List.mem_cons.mp h with rfl | h
      · exact ⟨claim, List.mem_cons_self, rfl, rfl⟩
      · exact hlater h

/-- Every write of a call is of a claimed record. -/
theorem mem_callWrites {io : AssetIo} {claims : List AssetRecord} {w : Bytes × Json × Bool}
    (h : w ∈ callWrites io claims) : ∃ claim ∈ claims, w.1 = claim.path ∧ w.2.1 = claim.asset := by
  rcases List.mem_append.mp h with h | h
  · exact mem_claimedWrites h
  · obtain ⟨claim, hmem, heq⟩ := mem_undoneWrites h
    exact ⟨claim, (prefix_committedClaims 0 claims).subset hmem, heq⟩

/-- A write leaves its record as it was just when it finds it so. -/
theorem writtenRecord_eq_iff {w : Bytes × Json × Bool} (htaken : Taken files w.1 w.2.1)
    (hfiles : ∀ path record, files path = some record → record.isObject = true → record.Keyed) :
    files w.1 = writtenRecord w.2 ↔ AsFound files w := by
  obtain ⟨path, asset, committed⟩ := w
  obtain ⟨record, hfile, hobject, hasset⟩ := htaken
  have hkeyed := hfiles path record hfile hobject
  show files path = some (asset.set (lit "committed") (.bool committed)) ↔
    files path = some asset ∧ asset.get? (lit "committed") = some (.bool committed)
  have hput : ∀ {j : Json} (key : Bytes) (v : Json), j.isObject = true → (j.set key v).get? key = some v :=
    fun key v hj => by rw [get?_set hj, if_pos rfl]
  rw [hfile, Option.some.injEq, Option.some.injEq]
  constructor
  · intro heq
    -- the record has the name and the flag that were written
    have hflag : record.get? (lit "committed") = some (.bool committed) := by
      rcases hasset with rfl | ⟨display, rfl⟩
      · rw [heq]
        exact hput _ _ hobject
      · rw [heq]
        exact hput _ _ (isObject_set hobject _ _)
    rcases hasset with rfl | ⟨display, rfl⟩
    · exact ⟨rfl, hflag⟩
    · have hname : record.get? (lit "name") = some (.str display) := by
        rw [heq, get?_set_ne _ _ (by decide)]
        exact hput _ _ hobject
      rw [set_of_get? hkeyed hname]
      exact ⟨rfl, hflag⟩
  · rintro ⟨rfl, hflag⟩
    exact (set_of_get? hkeyed hflag).symm

end Taken

/-- A claim that comes to nothing leaves every record as it was just when each
record it wrote was last written as it was found: by an undo, if any reached
it, as not committed and under its own name. -/
theorem claim_undone_iff [DoubleText] {files : AssetFiles}
    (hfiles : ∀ path record, files path = some record → record.isObject = true → record.Keyed)
    (io : AssetIo) (sessionPath : Bytes) (ids : List Json) (command : Json) :
    AssetStore.claimUndone io files sessionPath ids command = files ↔
      ∀ claims, (claimable io files sessionPath ids command).1 = .ok claims →
        ∀ w ∈ standing (callWrites io claims), AsFound files w := by
  cases hclaim : (claimable io files sessionPath ids command).1 with
  | error error => simp [claimUndone_of_error hclaim]
  | ok claims =>
    have hone : (∀ claims', @Except.ok Bytes _ claims = .ok claims' →
        ∀ w ∈ standing (callWrites io claims'), AsFound files w) ↔
        ∀ w ∈ standing (callWrites io claims), AsFound files w := by simp
    rw [hone, claimUndone_of_ok hclaim, foldl_overwrite_eq_self_iff, standing_map, List.forall_mem_map]
    refine forall₂_congr fun w hw => writtenRecord_eq_iff ?_ hfiles
    obtain ⟨claim, hmem, hpath, hasset⟩ := mem_callWrites (mem_of_standing hw)
    rw [hpath, hasset]
    exact claimable_taken hclaim claim hmem

/-- The folder of a session with one asset, as an earlier message left it. -/
def committedAsset : Json :=
  .ofFields [(lit "committed", .bool true), (lit "extension", .str (lit ".data")),
    (lit "name", .str (lit "notes.txt"))]

def assetPath : Bytes := lit "/s.json.assets/0123456789abcdef.json"

def assetFolder (record : Json) : AssetFiles := fun path => if path = assetPath then some record else none

def assetCommand : Json := .obj [(lit "attachments", .arr [])]

theorem assetFolder_keyed {fields : List (Bytes × Json)} (path : Bytes) (record : Json)
    (h : assetFolder (.ofFields fields) path = some record) (_ : record.isObject = true) :
    record.Keyed := by
  unfold assetFolder at h
  split_ifs at h
  exact Option.some.inj h ▸ keyed_ofFields fields

theorem claim_undone_iff_committed :
    letI := bitsText
    AssetStore.claimUndone {} (assetFolder committedAsset) (lit "/s.json")
        [.str (lit "0123456789abcdef")] assetCommand = assetFolder committedAsset ↔
      ∀ claims, (claimable {} (assetFolder committedAsset) (lit "/s.json")
          [.str (lit "0123456789abcdef")] assetCommand).1 = .ok claims →
        ∀ w ∈ standing (callWrites {} claims), AsFound (assetFolder committedAsset) w :=
  @claim_undone_iff bitsText _ assetFolder_keyed {} _ _ _

/-- A claim of a committed asset that is given back leaves it uncommitted. -/
theorem committed_asset_uncommitted :
    letI := bitsText
    (assetFolder committedAsset assetPath).bind (·.get? (lit "committed")) = some (.bool true) ∧
      (AssetStore.claim {} (assetFolder committedAsset) (lit "/s.json")
        [.str (lit "0123456789abcdef")] assetCommand).error = [] ∧
      (AssetStore.claimUndone {} (assetFolder committedAsset) (lit "/s.json")
        [.str (lit "0123456789abcdef")] assetCommand assetPath).bind (·.get? (lit "committed")) =
          some (.bool false) := by
  decide +kernel

end UAgent
