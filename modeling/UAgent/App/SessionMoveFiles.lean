/-
UAgent/App/SessionMoveFiles.lean

The disk while the files of a session move.

It is known by the set of names that have moved (`Moved`); which sets can
come up is `Closed`: a session file goes after what sits beside it, or along
with what another file that still stands has beside it.  From any such disk
the files move on to the end (`triple_each_moveFiles`).  The leases are what
breaks: recovery takes them first, and taking one whose lock has moved
without its session file makes it anew, in the way of the move
(`stops_wholeMove`).
-/
import UAgent.App.SessionMove
import Mathlib.Data.Set.Insert

namespace UAgent

open Bytes

/-! ### Names and directories -/

theorem slash_not_mem_fileName (path : Bytes) : ch '/' ∉ fileName path := not_mem_afterLast _ _

theorem fileName_inDirectory (directory : Bytes) {name : Bytes} (h : ch '/' ∉ name) :
    fileName (inDirectory directory name) = name := afterLast_append_cons directory h

theorem parentPath_inDirectory (directory : Bytes) {name : Bytes} (h : ch '/' ∉ name) :
    parentPath (inDirectory directory name) = directory := by
  have hlen : (directory ++ ch '/' :: name).length - name.length - 1 = directory.length := by
    rw [List.length_append, List.length_cons]
    omega
  rw [parentPath, fileName_inDirectory directory h, inDirectory, hlen, List.take_left]

/-- A path is its name in its directory. -/
theorem inDirectory_parentPath {path : Bytes} (h : ch '/' ∈ path) :
    inDirectory (parentPath path) (fileName path) = path := by
  obtain ⟨directory, hpath⟩ := exists_append_afterLast h
  have hparent : parentPath path = directory := by
    rw [hpath]
    exact parentPath_inDirectory directory (not_mem_afterLast _ _)
  rw [hparent]
  exact hpath.symm

/-- A suffix without separators lengthens the name. -/
theorem fileName_append (path : Bytes) {suffix : Bytes} (h : ch '/' ∉ suffix) :
    fileName (path ++ suffix) = fileName path ++ suffix := afterLast_append_of_not_mem path h

theorem length_fileName_le (path : Bytes) : (fileName path).length ≤ path.length :=
  (List.rtakeWhile_suffix _ path).length_le

theorem parentPath_append (path : Bytes) {suffix : Bytes} (h : ch '/' ∉ suffix) :
    parentPath (path ++ suffix) = parentPath path := by
  have hle := length_fileName_le path
  rw [parentPath, parentPath, fileName_append path h, List.length_append, List.length_append,
    List.take_append_of_le_length (by omega)]
  congr 1
  omega

/-- A session file's name is its stem and the extension. -/
theorem fileName_of_extension {path : Bytes} (h : pathExtension path = lit ".json") :
    fileName path = pathStem path ++ lit ".json" := by
  have hext : pathExtension path <:+ fileName path := by
    by_cases hdot : ch '.' ∈ fileName path
    · obtain ⟨stem, hname⟩ := exists_append_afterLast hdot
      unfold pathExtension
      dsimp only
      split_ifs
      · exact ⟨stem, hname.symm⟩
      · exact List.nil_suffix
    · unfold pathExtension
      dsimp only
      rw [afterLast_eq_self hdot, if_neg (by omega)]
      exact List.nil_suffix
  obtain ⟨stem, hname⟩ := hext
  have hstem : pathStem path = stem := by
    rw [pathStem, ← hname, List.length_append, Nat.add_sub_cancel, List.take_left]
  rw [hstem, ← h, hname]

/-! ### What sits beside a session file -/

theorem isSidecar_iff {path candidate : Bytes} :
    isSidecar path candidate = true ↔ parentPath candidate = parentPath path ∧
      (fileName path ++ lit "." <+: fileName candidate ∨
        fileName candidate = pathStem path ++ lit ".share.md") := by
  simp [isSidecar]

/-- The lock of a session is beside it. -/
theorem isSidecar_sessionLockPath (path : Bytes) : isSidecar path (sessionLockPath path) = true := by
  refine isSidecar_iff.mpr ⟨parentPath_append path (by decide), .inl ?_⟩
  rw [sessionLockPath, fileName_append path (by decide)]
  exact ⟨lit "lock", by rw [List.append_assoc]; rfl⟩

/-- No session file is beside itself. -/
theorem isSidecar_self {path : Bytes} (h : pathExtension path = lit ".json") :
    isSidecar path path = false := by
  rw [Bool.eq_false_iff]
  intro hside
  rcases (isSidecar_iff.mp hside).2 with hpre | hshare
  · have hlen := hpre.length_le
    rw [List.length_append] at hlen
    exact absurd hlen (Nat.not_le.mpr (Nat.lt_add_of_pos_right (by decide)))
  · rw [fileName_of_extension h] at hshare
    exact absurd (List.append_cancel_left hshare) (by decide)

/-- What is beside a session file that is itself beside another, is beside the
other. -/
theorem isSidecar_trans {a b c : Bytes} (hb : pathExtension b = lit ".json")
    (hab : isSidecar a b = true) (hbc : isSidecar b c = true) : isSidecar a c = true := by
  rw [isSidecar_iff] at hab hbc ⊢
  obtain ⟨hdir, hname⟩ := hab
  obtain ⟨hdir', hname'⟩ := hbc
  refine ⟨hdir'.trans hdir, .inl ?_⟩
  have hjson := fileName_of_extension hb
  have hpre : fileName a ++ lit "." <+: fileName b := by
    refine hname.resolve_right fun hshare => ?_
    have hlast := congrArg List.getLast? (hjson.symm.trans hshare)
    rw [List.getLast?_append, List.getLast?_append,
      show (lit ".json").getLast? = some (ch 'n') by decide,
      show (lit ".share.md").getLast? = some (ch 'd') by decide] at hlast
    exact absurd (Option.some.inj hlast) (by decide)
  rcases hname' with hpre' | hshare
  · exact hpre.trans ((List.prefix_append _ _).trans hpre')
  · -- The dot that ends the one name stands in the other's stem, or ends it.
    rw [hjson] at hpre
    rw [hshare]
    have hcut : fileName a ++ lit "." <+: pathStem b ++ lit "." := by
      rcases Nat.lt_or_ge (pathStem b ++ lit ".").length (fileName a ++ lit ".").length with hlt | hle
      · obtain ⟨rest, hrest⟩ : pathStem b ++ lit "." <+: fileName a ++ lit "." :=
          List.prefix_of_prefix_length_le ⟨lit "json", by rw [List.append_assoc]; rfl⟩ hpre hlt.le
        exfalso
        obtain ⟨tail, htail⟩ := hpre
        rw [← hrest, List.append_assoc, List.append_assoc] at htail
        have hjson' : rest ++ tail = lit "json" :=
          List.append_cancel_left ((List.append_cancel_left htail).trans
            (show lit ".json" = lit "." ++ lit "json" by decide))
        have hdot : ch '.' ∈ rest := by
          have hlast := congrArg List.getLast? hrest
          rcases hnil : rest with - | ⟨x, xs⟩
          · rw [hnil, List.append_nil] at hrest
            rw [hrest] at hlt
            exact absurd hlt (Nat.lt_irrefl _)
          · rw [hnil, List.getLast?_append, List.getLast?_append] at hlast
            refine List.mem_of_getLast? ?_
            simpa [show lit "." = [ch '.'] by decide, List.getLast?_cons] using hlast
        have hmem : ch '.' ∈ lit "json" := hjson' ▸ List.mem_append_left tail hdot
        exact absurd hmem (by decide)
      · exact List.prefix_of_prefix_length_le hpre ⟨lit "json", by rw [List.append_assoc]; rfl⟩ hle
    exact hcut.trans ⟨lit "share.md", by rw [List.append_assoc]; rfl⟩

/-! ### What moves, and where to -/

/-- A session file of the move, or what sits beside one. -/
def Beside (move : SessionMove) (path : Bytes) : Prop :=
  ∃ file ∈ move.files, path = file.fromPath ∨ isSidecar file.fromPath path = true

/-- What the move takes along. -/
def Moves (move : SessionMove) (w : MoveWorld) (path : Bytes) : Prop :=
  path ∈ w.files ∧ Beside move path

/-- Where it takes it. -/
def destination (host : MoveHost) (move : SessionMove) (path : Bytes) : Bytes :=
  inDirectory (targetDirectory host.history move) (fileName path)

/-- A valid move whose files exist, each beside its lock, and whose targets
are free: nothing is there, and no two things go to one place. -/
structure Ready (host : MoveHost) (move : SessionMove) (w : MoveWorld) : Prop where
  valid : validMove host.history move = true
  once : (move.files.map (·.fromPath)).Nodup
  sessions : ∀ file ∈ move.files, ∃ record, w.files.lookup file.fromPath = some (.session record)
  locks : ∀ file ∈ move.files, ∃ content,
    w.files.lookup (sessionLockPath file.fromPath) = some (.file content)
  free : ∀ path, Moves move w path → destination host move path ∉ w.files
  apart : ∀ path other, Moves move w path → Moves move w other →
    fileName path = fileName other → path = other

section Paths

variable {host : MoveHost} {move : SessionMove} {w₀ : MoveWorld}

theorem parentPath_destination (path : Bytes) :
    parentPath (destination host move path) = targetDirectory host.history move :=
  parentPath_inDirectory _ (slash_not_mem_fileName path)

theorem fileName_destination (path : Bytes) :
    fileName (destination host move path) = fileName path :=
  fileName_inDirectory _ (slash_not_mem_fileName path)

namespace Ready

/-- What `ValidMove` says of a file. -/
theorem file_valid (h : Ready host move w₀) {file : MovedFile} (hfile : file ∈ move.files) :
    pathExtension file.fromPath = lit ".json" ∧
      parentPath file.fromPath ≠ targetDirectory host.history move ∧
      parentPath file.toPath = targetDirectory host.history move ∧
      fileName file.toPath = fileName file.fromPath := by
  have hvalid := h.valid
  simp only [validMove, Bool.and_eq_true, List.all_eq_true] at hvalid
  have hall := hvalid.2 file hfile
  simp only [validFile, Bool.and_eq_true, decide_eq_true_eq] at hall
  obtain ⟨⟨⟨⟨⟨⟨-, -⟩, hext⟩, -⟩, hfrom⟩, hto⟩, hname⟩ := hall
  exact ⟨hext, hfrom, hto, hname⟩

/-- A session file goes where the rest of the move goes. -/
theorem toPath_eq (h : Ready host move w₀) {file : MovedFile} (hfile : file ∈ move.files) :
    file.toPath = destination host move file.fromPath := by
  obtain ⟨-, -, hto, hname⟩ := h.file_valid hfile
  have hslash : ch '/' ∈ file.toPath := by
    by_contra hno
    have hnil : parentPath file.toPath = [] := by
      rw [parentPath, fileName, afterLast_eq_self hno]
      simp
    rw [hnil] at hto
    exact absurd hto.symm (by simp [targetDirectory, inDirectory])
  rw [destination, ← hto, ← hname, inDirectory_parentPath hslash]

theorem parentPath_ne (h : Ready host move w₀) {path : Bytes} (hpath : Beside move path) :
    parentPath path ≠ targetDirectory host.history move := by
  obtain ⟨file, hfile, rfl | hside⟩ := hpath
  · exact (h.file_valid hfile).2.1
  · rw [(isSidecar_iff.mp hside).1]
    exact (h.file_valid hfile).2.1

/-- Nothing that moves is a target. -/
theorem destination_ne (h : Ready host move w₀) {path : Bytes} (hpath : Beside move path)
    (other : Bytes) : destination host move other ≠ path := fun heq =>
  h.parentPath_ne hpath (heq ▸ parentPath_destination other)

theorem moves_fromPath (h : Ready host move w₀) {file : MovedFile} (hfile : file ∈ move.files) :
    Moves move w₀ file.fromPath := by
  obtain ⟨record, hrecord⟩ := h.sessions file hfile
  exact ⟨AList.lookup_isSome.mp (by rw [hrecord]; rfl), file, hfile, .inl rfl⟩

theorem moves_sessionLockPath (h : Ready host move w₀) {file : MovedFile}
    (hfile : file ∈ move.files) : Moves move w₀ (sessionLockPath file.fromPath) := by
  obtain ⟨content, hcontent⟩ := h.locks file hfile
  exact ⟨AList.lookup_isSome.mp (by rw [hcontent]; rfl), file, hfile,
    .inr (isSidecar_sessionLockPath _)⟩

/-- The lock goes to the lock of the new place. -/
theorem sessionLockPath_toPath (h : Ready host move w₀) {file : MovedFile}
    (hfile : file ∈ move.files) :
    sessionLockPath file.toPath = destination host move (sessionLockPath file.fromPath) := by
  rw [h.toPath_eq hfile, destination, destination, sessionLockPath, sessionLockPath,
    fileName_append _ (by decide), inDirectory, inDirectory, List.append_assoc, List.cons_append]

end Ready

end Paths

/-! ### Half-moved disks -/

/-- The disk on which exactly the names of `X` have moved. -/
structure Moved (host : MoveHost) (move : SessionMove) (w₀ : MoveWorld) (X : Set Bytes)
    (w : MoveWorld) : Prop where
  sub : ∀ path ∈ X, Moves move w₀ path
  gone : ∀ path ∈ X, w.files.lookup path = none
  arrived : ∀ path ∈ X, w.files.lookup (destination host move path) = w₀.files.lookup path
  rest : ∀ path, path ∉ X → (∀ other ∈ X, destination host move other ≠ path) →
    w.files.lookup path = w₀.files.lookup path
  ledgers : w.ledgers = w₀.ledgers
  runs : w.runs = w₀.runs

/-- Which names can have moved: with a session file what is beside it, unless
it went along with what is beside another that still stands. -/
def Closed (move : SessionMove) (w₀ : MoveWorld) (X : Set Bytes) : Prop :=
  ∀ file ∈ move.files, file.fromPath ∈ X →
    (∀ path, Moves move w₀ path → isSidecar file.fromPath path = true → path ∈ X) ∨
      ∃ other ∈ move.files, other.fromPath ∉ X ∧ isSidecar other.fromPath file.fromPath = true

section Half

variable {host : MoveHost} {move : SessionMove} {w₀ w : MoveWorld} {X : Set Bytes}

namespace Moved

theorem start (host : MoveHost) (move : SessionMove) (w : MoveWorld) : Moved host move w ∅ w :=
  ⟨by simp, by simp, by simp, fun _ _ _ => rfl, rfl, rfl⟩

/-- What has not moved is as it was. -/
theorem lookup_of_beside (h : Ready host move w₀) (hw : Moved host move w₀ X w) {path : Bytes}
    (hpath : Beside move path) (hX : path ∉ X) : w.files.lookup path = w₀.files.lookup path :=
  hw.rest path hX fun other _ => h.destination_ne hpath other

theorem mem_iff (h : Ready host move w₀) (hw : Moved host move w₀ X w) {path : Bytes}
    (hpath : Beside move path) : path ∈ w.files ↔ Moves move w₀ path ∧ path ∉ X := by
  by_cases hX : path ∈ X
  · refine iff_of_false (fun hmem => ?_) (fun hmem => hmem.2 hX)
    exact AList.lookup_eq_none.mp (hw.gone path hX) hmem
  · rw [← AList.lookup_isSome, hw.lookup_of_beside h hpath hX, AList.lookup_isSome]
    exact ⟨fun hmem => ⟨⟨hmem, hpath⟩, hX⟩, fun hmem => hmem.1.1⟩

/-- The target of what has not moved is free. -/
theorem free (h : Ready host move w₀) (hw : Moved host move w₀ X w) {path : Bytes}
    (hpath : Moves move w₀ path) (hX : path ∉ X) : destination host move path ∉ w.files := by
  have hlookup : w.files.lookup (destination host move path) =
      w₀.files.lookup (destination host move path) := by
    refine hw.rest _ (fun hmem => ?_) fun other hother heq => ?_
    · exact h.destination_ne (hw.sub _ hmem).2 path rfl
    · have hname := congrArg fileName heq
      rw [fileName_destination, fileName_destination] at hname
      exact hX (h.apart _ _ (hw.sub _ hother) hpath hname ▸ hother)
  rw [← AList.lookup_eq_none, hlookup, AList.lookup_eq_none]
  exact h.free path hpath

/-- One more name moves. -/
theorem rename (h : Ready host move w₀) (hw : Moved host move w₀ X w) {path : Bytes}
    (hpath : Moves move w₀ path) (hX : path ∉ X) :
    Moved host move w₀ (insert path X)
      (w.apply (.rename path (destination host move path))) := by
  obtain ⟨entry, hentry⟩ : ∃ entry, w₀.files.lookup path = some entry :=
    Option.isSome_iff_exists.mp (AList.lookup_isSome.mpr hpath.1)
  have hhere : w.files.lookup path = some entry := by
    rw [hw.lookup_of_beside h hpath.2 hX, hentry]
  have happly : w.apply (.rename path (destination host move path)) =
      { w with files := (w.files.erase path).insert (destination host move path) entry } := by
    rw [MoveWorld.apply, hhere]
  have hother : ∀ q, q ≠ path → q ≠ destination host move path →
      (w.apply (.rename path (destination host move path))).files.lookup q =
        w.files.lookup q := by
    intro q hq hdest
    rw [happly, AList.lookup_insert_ne hdest, AList.lookup_erase_ne hq]
  refine ⟨?_, ?_, ?_, ?_, ?_, ?_⟩
  · rintro q (rfl | hq)
    · exact hpath
    · exact hw.sub q hq
  · rintro q (rfl | hq)
    · rw [happly, AList.lookup_insert_ne (h.destination_ne hpath.2 _).symm, AList.lookup_erase]
    · have hq' := hw.sub q hq
      rw [hother q (fun heq => hX (heq ▸ hq)) (h.destination_ne hq'.2 _).symm]
      exact hw.gone q hq
  · rintro q (rfl | hq)
    · rw [happly, AList.lookup_insert, hentry]
    · have hq' := hw.sub q hq
      have hne : q ≠ path := fun heq => hX (heq ▸ hq)
      rw [hother _ (h.destination_ne hpath.2 q) fun heq => ?_]
      · exact hw.arrived q hq
      · have hname := congrArg fileName heq
        rw [fileName_destination, fileName_destination] at hname
        exact hne (h.apart _ _ hq' hpath hname)
  · intro q hq hdest
    rw [Set.mem_insert_iff, not_or] at hq
    rw [hother q hq.1 (hdest path (Set.mem_insert _ _)).symm]
    exact hw.rest q hq.2 fun other hmem => hdest other (Set.mem_insert_of_mem _ hmem)
  · rw [happly]
    exact hw.ledgers
  · rw [happly]
    exact hw.runs

end Moved

namespace Closed

/-- What is beside a session file that still stands may go. -/
theorem insert_side (h : Ready host move w₀) (hX : Closed move w₀ X) {file : MovedFile}
    (hfile : file ∈ move.files) (hstands : file.fromPath ∉ X) {path : Bytes}
    (hside : isSidecar file.fromPath path = true) : Closed move w₀ (insert path X) := by
  have hstill : file.fromPath ∉ insert path X := by
    rintro (rfl | hmem)
    · rw [isSidecar_self (h.file_valid hfile).1] at hside
      cases hside
    · exact hstands hmem
  rintro other hother (rfl | hmem)
  · exact .inr ⟨file, hfile, hstill, hside⟩
  · rcases hX other hother hmem with hall | ⟨under, hunder, hout, hbeside⟩
    · exact .inl fun q hq hq' => Set.mem_insert_of_mem _ (hall q hq hq')
    · by_cases heq : under.fromPath = path
      · refine .inr ⟨file, hfile, hstill, isSidecar_trans (h.file_valid hunder).1 ?_ hbeside⟩
        rw [heq]
        exact hside
      · refine .inr ⟨under, hunder, ?_, hbeside⟩
        rintro (h' | h')
        · exact heq h'
        · exact hout h'

/-- A session file goes once nothing is beside it. -/
theorem insert_file (h : Ready host move w₀) (hX : Closed move w₀ X) {file : MovedFile}
    (hall : ∀ path, Moves move w₀ path → isSidecar file.fromPath path = true → path ∈ X) :
    Closed move w₀ (insert file.fromPath X) := by
  have hgone : ∀ q, Moves move w₀ q → isSidecar file.fromPath q = true →
      q ∈ insert file.fromPath X := fun q hq hq' => Set.mem_insert_of_mem _ (hall q hq hq')
  rintro other hother (heq | hmem)
  · exact .inl (heq ▸ hgone)
  · rcases hX other hother hmem with hall' | ⟨under, hunder, hout, hbeside⟩
    · exact .inl fun q hq hq' => Set.mem_insert_of_mem _ (hall' q hq hq')
    · by_cases heq : under.fromPath = file.fromPath
      · refine .inl fun q hq hq' => hgone q hq ?_
        exact isSidecar_trans (h.file_valid hother).1 (heq ▸ hbeside) hq'
      · refine .inr ⟨under, hunder, ?_, hbeside⟩
        rintro (h' | h')
        · exact heq h'
        · exact hout h'

/-- Once every session file has moved, so has everything. -/
theorem all_of_files (hX : Closed move w₀ X) (hfiles : ∀ file ∈ move.files, file.fromPath ∈ X)
    {path : Bytes} (hpath : Moves move w₀ path) : path ∈ X := by
  obtain ⟨file, hfile, rfl | hside⟩ := hpath.2
  · exact hfiles file hfile
  · rcases hX file hfile (hfiles file hfile) with hall | ⟨other, hother, hout, -⟩
    · exact hall path hpath hside
    · exact absurd (hfiles other hother) hout

end Closed

/-! ### Moving one file after another -/

/-- A disk a crash leaves while the files move. -/
def Halfway (host : MoveHost) (move : SessionMove) (w₀ w : MoveWorld) : Prop :=
  ∃ X, Moved host move w₀ X w ∧ Closed move w₀ X

theorem triple_renameFile (h : Ready host move w₀) {path : Bytes} (hpath : Moves move w₀ path)
    (hX : path ∉ X) (hclosed : Closed move w₀ X) (hclosed' : Closed move w₀ (insert path X)) :
    Script.Triple MoveWorld.apply (Moved host move w₀ X)
      (renameFile path (destination host move path)) (Halfway host move w₀)
      (Moved host move w₀ (insert path X)) := by
  refine .step (fun w hw => ⟨X, hw, hclosed⟩) (fun w hw => ⟨_, hw, hclosed'⟩) fun w hw => ?_
  refine .inr ⟨.rename path (destination host move path), ?_, hw.rename h hpath hX⟩
  rw [renameFile, if_neg (hw.free h hpath hX), if_pos ((hw.mem_iff h hpath.2).mpr ⟨hpath, hX⟩)]

/-- While the sidecars `sides` of `file` are still to be moved: they are what
is left of those there were. -/
structure Listed (host : MoveHost) (move : SessionMove) (w₀ : MoveWorld) (file : MovedFile)
    (X₀ : Set Bytes) (sides : List Bytes) (X : Set Bytes) (w : MoveWorld) : Prop where
  moved : Moved host move w₀ X w
  closed : Closed move w₀ X
  grown : X₀ ⊆ X
  stands : file.fromPath ∉ X
  nodup : sides.Nodup
  left : ∀ path ∈ sides, Moves move w₀ path ∧ isSidecar file.fromPath path = true ∧ path ∉ X
  all : ∀ path, Moves move w₀ path → isSidecar file.fromPath path = true → path ∈ X ∨ path ∈ sides

/-- One sidecar moves. -/
theorem triple_side (h : Ready host move w₀) {file : MovedFile} (hfile : file ∈ move.files)
    {X₀ : Set Bytes} (side : Bytes) (sides : List Bytes) :
    Script.Triple MoveWorld.apply
      (fun w => ∃ X, Listed host move w₀ file X₀ (side :: sides) X w)
      (renameFile side (inDirectory (parentPath file.toPath) (fileName side)))
      (Halfway host move w₀) (fun w => ∃ X, Listed host move w₀ file X₀ sides X w) := by
  rw [(h.file_valid hfile).2.2.1]
  show Script.Triple _ _ (renameFile side (destination host move side)) _ _
  refine .of_exists fun X w hw => ?_
  obtain ⟨hpath, hside, hX⟩ := hw.left side List.mem_cons_self
  have hclosed := hw.closed.insert_side h hfile hw.stands hside
  obtain ⟨hend, hcut, hmoved⟩ := triple_renameFile h hpath hX hw.closed hclosed w hw.moved
  refine ⟨hend, hcut, insert side X, hmoved, hclosed, ?_, ?_, ?_, ?_, ?_⟩
  · exact hw.grown.trans (Set.subset_insert _ _)
  · rintro (heq | hmem)
    · rw [← heq, isSidecar_self (h.file_valid hfile).1] at hside
      cases hside
    · exact hw.stands hmem
  · exact (List.nodup_cons.mp hw.nodup).2
  · intro path hmem
    obtain ⟨hp, hs, hnot⟩ := hw.left path (List.mem_cons_of_mem _ hmem)
    refine ⟨hp, hs, ?_⟩
    rintro (rfl | hin)
    · exact (List.nodup_cons.mp hw.nodup).1 hmem
    · exact hnot hin
  · intro path hp hs
    rcases hw.all path hp hs with hin | hin
    · exact .inl (Set.mem_insert_of_mem _ hin)
    · rcases List.mem_cons.mp hin with rfl | hin
      · exact .inl (Set.mem_insert _ _)
      · exact .inr hin

/-- A session file moves after what is beside it. -/
theorem triple_moveListed (h : Ready host move w₀) {file : MovedFile} (hfile : file ∈ move.files)
    {X₀ : Set Bytes} (sides : List Bytes) :
    Script.Triple MoveWorld.apply (fun w => ∃ X, Listed host move w₀ file X₀ sides X w)
      (moveListed file sides) (Halfway host move w₀)
      (fun w => ∃ X, Moved host move w₀ X w ∧ Closed move w₀ X ∧ X₀ ⊆ X ∧ file.fromPath ∈ X) := by
  refine .andThen (Script.Triple.each (I := fun sides w => ∃ X, Listed host move w₀ file X₀ sides X w)
    (fun w ⟨X, hw⟩ => ⟨X, hw.moved, hw.closed⟩) (triple_side h hfile) sides) ?_
  rw [h.toPath_eq hfile]
  refine .of_exists fun X w hw => ?_
  have hclosed : Closed move w₀ (insert file.fromPath X) :=
    hw.closed.insert_file h fun path hp hs =>
      (hw.all path hp hs).resolve_right List.not_mem_nil
  obtain ⟨hend, hcut, hmoved⟩ :=
    triple_renameFile h (h.moves_fromPath hfile) hw.stands hw.closed hclosed w hw.moved
  refine ⟨hend, hcut, _, hmoved, hclosed, ?_, ?_⟩
  · exact hw.grown.trans (Set.subset_insert _ _)
  · exact Set.mem_insert _ _

/-- What is listed beside a session file that stands is what is left there. -/
theorem listed_sidecars (h : Ready host move w₀) {file : MovedFile} (hfile : file ∈ move.files)
    (listing : Listing) (hw : Moved host move w₀ X w) (hclosed : Closed move w₀ X)
    (hX : file.fromPath ∉ X) :
    Listed host move w₀ file X (sidecars listing file.fromPath w) X w := by
  have hmem : ∀ path, path ∈ sidecars listing file.fromPath w ↔
      path ∈ w.files ∧ isSidecar file.fromPath path = true := by
    intro path
    rw [sidecars, (listing.perm _).mem_iff, List.mem_filter, AList.mem_keys]
  have hbeside : ∀ path, isSidecar file.fromPath path = true → Beside move path :=
    fun path hs => ⟨file, hfile, .inr hs⟩
  refine ⟨hw, hclosed, subset_rfl, hX, ?_, ?_, ?_⟩
  · exact (listing.perm _).nodup_iff.mpr (w.files.keys_nodup.filter _)
  · intro path hp
    obtain ⟨hin, hs⟩ := (hmem path).mp hp
    obtain ⟨hmoves, hnot⟩ := (hw.mem_iff h (hbeside path hs)).mp hin
    exact ⟨hmoves, hs, hnot⟩
  · intro path hp hs
    by_cases hin : path ∈ X
    · exact .inl hin
    · exact .inr ((hmem path).mpr ⟨(hw.mem_iff h (hbeside path hs)).mpr ⟨hp, hin⟩, hs⟩)

/-- `MoveFiles`, of one file, from any disk a crash may have left. -/
theorem triple_moveFiles (h : Ready host move w₀) (listing : Listing) {file : MovedFile}
    (hfile : file ∈ move.files) :
    Script.Triple MoveWorld.apply (fun w => Moved host move w₀ X w ∧ Closed move w₀ X)
      (moveFiles listing file) (Halfway host move w₀)
      (fun w => ∃ X', Moved host move w₀ X' w ∧ Closed move w₀ X' ∧ X ⊆ X' ∧
        file.fromPath ∈ X') := by
  refine .congr fun w ⟨hw, hclosed⟩ => ?_
  have hmoves := h.moves_fromPath hfile
  by_cases hX : file.fromPath ∈ X
  · -- An earlier file took it along, or it had moved before.
    refine ⟨.done, ?_, fun w => Moved host move w₀ X w ∧ Closed move w₀ X, ⟨hw, hclosed⟩, ?_⟩
    · have hthere : file.toPath ∈ w.files := by
        rw [h.toPath_eq hfile, ← AList.lookup_isSome, hw.arrived _ hX, AList.lookup_isSome]
        exact hmoves.1
      rw [moveFiles, if_neg fun hmem => ((hw.mem_iff h hmoves.2).mp hmem).2 hX, if_pos hthere]
      rfl
    · exact (Script.Triple.done fun w hw => ⟨X, hw.1, hw.2⟩).consequence (fun _ => id) (fun _ => id)
        fun w hw => ⟨X, hw.1, hw.2, subset_rfl, hX⟩
  · refine ⟨moveListed file (sidecars listing file.fromPath w), ?_, _,
      ⟨X, listed_sidecars h hfile listing hw hclosed hX⟩, triple_moveListed h hfile _⟩
    rw [moveFiles, if_pos ((hw.mem_iff h hmoves.2).mpr ⟨hmoves, hX⟩)]

/-- The disk on which everything has moved. -/
def Arrived (host : MoveHost) (move : SessionMove) (w₀ w : MoveWorld) : Prop :=
  Moved host move w₀ {path | Moves move w₀ path} w

/-- All files move, from any disk a crash may have left. -/
theorem triple_each_moveFiles (h : Ready host move w₀) (listing : Listing) :
    Script.Triple MoveWorld.apply (Halfway host move w₀)
      (.each MoveWorld.apply (moveFiles listing) move.files) (Halfway host move w₀)
      (Arrived host move w₀) := by
  -- The files not yet treated are a part of the move; the others have moved.
  have hloop : Script.Triple MoveWorld.apply _ (.each MoveWorld.apply (moveFiles listing) move.files)
      (Halfway host move w₀) _ := .each
    (I := fun files w => (∀ file ∈ files, file ∈ move.files) ∧ ∃ X, Moved host move w₀ X w ∧
      Closed move w₀ X ∧ ∀ file ∈ move.files, file ∈ files ∨ file.fromPath ∈ X)
    (fun w hw => let ⟨_, X, hX, hc, _⟩ := hw; ⟨X, hX, hc⟩)
    (fun file files w hw => by
      obtain ⟨hpart, X, hX, hclosed, htreated⟩ := hw
      obtain ⟨hend, hcut, X', hX', hclosed', hsub, hmem⟩ :=
        triple_moveFiles h listing (hpart file List.mem_cons_self) w ⟨hX, hclosed⟩
      refine ⟨hend, hcut, fun f hf => hpart f (List.mem_cons_of_mem _ hf), X', hX', hclosed',
        fun f hf => ?_⟩
      rcases htreated f hf with hin | hin
      · rcases List.mem_cons.mp hin with rfl | hin
        · exact .inr hmem
        · exact .inl hin
      · exact .inr (hsub hin)) move.files
  refine hloop.consequence (fun w hw => ?_) (fun _ => id) (fun w hw => ?_)
  · obtain ⟨X, hX, hclosed⟩ := hw
    exact ⟨fun _ => id, X, hX, hclosed, fun _ => .inl⟩
  · obtain ⟨-, X, hX, hclosed, hall⟩ := hw
    have hfiles : ∀ file ∈ move.files, file.fromPath ∈ X :=
      fun file hfile => (hall file hfile).resolve_left List.not_mem_nil
    have heq : X = {path | Moves move w₀ path} :=
      Set.Subset.antisymm (fun path => hX.sub path) fun path hpath =>
        hclosed.all_of_files hfiles hpath
    rw [Arrived, ← heq]
    exact hX

end Half

/-! ### The leases -/

/-- Every session file that still stands has its lock beside it. -/
def LocksInPlace (move : SessionMove) (w : MoveWorld) : Prop :=
  ∀ file ∈ move.files, file.fromPath ∈ w.files → sessionLockPath file.fromPath ∈ w.files

instance (move : SessionMove) (w : MoveWorld) : Decidable (LocksInPlace move w) := by
  unfold LocksInPlace; infer_instance

section Leases

variable {host : MoveHost} {move : SessionMove} {w₀ w : MoveWorld}

/-- Taking a lease that exists changes nothing. -/
theorem acquire_of_file {context path content : Bytes}
    (h : w.files.lookup path = some (.file content)) : acquire context path w = ([], none) := by
  rw [acquire, h]

/-- With the locks in place the leases leave the disk alone. -/
theorem holdMove_of_locksInPlace (h : Ready host move w₀) (hw : Halfway host move w₀ w)
    (hlocks : LocksInPlace move w) : holdMove move w = ([], none) := by
  obtain ⟨X, hX, -⟩ := hw
  refine Script.each_idle fun file hfile => ?_
  rw [holdFile]
  split_ifs with hstands
  · obtain ⟨content, hcontent⟩ := h.locks file hfile
    have hbeside := (h.moves_sessionLockPath hfile).2
    have hthere := ((hX.mem_iff h hbeside).mp (hlocks file hfile hstands)).2
    exact acquire_of_file (by rw [hX.lookup_of_beside h hbeside hthere, hcontent])
  · rfl

/-! #### A lock that has moved without its file -/

/-- A session file and its lock stand, and the lock's target is taken. -/
structure Stuck (host : MoveHost) (move : SessionMove) (file : MovedFile) (w : MoveWorld) :
    Prop where
  session : file.fromPath ∈ w.files
  lock : sessionLockPath file.fromPath ∈ w.files
  taken : destination host move (sessionLockPath file.fromPath) ∈ w.files

theorem mem_apply_rename {path source target : Bytes} (hpath : path ∈ w.files)
    (hne : path ≠ source) : path ∈ (w.apply (.rename source target)).files := by
  rw [MoveWorld.apply]
  rcases w.files.lookup source with - | entry
  · exact hpath
  · exact (AList.mem_insert _).mpr (.inr (AList.mem_erase.mpr ⟨hne, hpath⟩))

/-- A rename that does not stop leaves the other names. -/
theorem keeps_renameFile {source target path : Bytes} (hne : path ≠ source) :
    Script.Keeps MoveWorld.apply (fun w => path ∈ w.files) (renameFile source target) := by
  intro w hw hend
  rw [Script.final, renameFile] at *
  split_ifs at hend ⊢
  exact mem_apply_rename hw hne

theorem keeps_each_renameFile {sides : List Bytes} {target : Bytes → Bytes} {path : Bytes}
    (hne : ∀ side ∈ sides, path ≠ side) :
    Script.Keeps MoveWorld.apply (fun w => path ∈ w.files)
      (.each MoveWorld.apply (fun side => renameFile side (target side)) sides) :=
  .each fun side hside => keeps_renameFile (hne side hside)

/-- No session file is a lock. -/
theorem fromPath_ne_sessionLockPath {path other : Bytes} (h : pathExtension path = lit ".json") :
    path ≠ sessionLockPath other := fun heq => by
  have hname := fileName_of_extension h
  rw [heq, sessionLockPath, fileName_append other (by decide)] at hname
  have hlast := congrArg List.getLast? hname
  rw [List.getLast?_append, List.getLast?_append,
    show (lit ".json").getLast? = some (ch 'n') by decide,
    show (lit ".lock").getLast? = some (ch 'k') by decide] at hlast
  exact absurd (Option.some.inj hlast) (by decide)

/-- A listing with the stuck lock in it comes to an end there. -/
theorem stops_of_listed (h : Ready host move w₀) {file other : MovedFile}
    (hother : other ∈ move.files) {sides : List Bytes}
    (hsides : ∀ side ∈ sides, isSidecar other.fromPath side = true)
    (hlock : sessionLockPath file.fromPath ∈ sides) :
    Script.Stops (Stuck host move file) (moveListed other sides) := by
  have heach : Script.Stops (fun w => destination host move (sessionLockPath file.fromPath) ∈ w.files)
      (Script.each MoveWorld.apply (fun side =>
        renameFile side (inDirectory (parentPath other.toPath) (fileName side))) sides) := by
    refine .each hlock (fun side hside => keeps_renameFile fun heq => ?_) fun w hw => ?_
    · exact h.destination_ne ⟨other, hother, .inr (hsides side hside)⟩ _ heq
    · have htaken : inDirectory (targetDirectory host.history move)
          (fileName (sessionLockPath file.fromPath)) ∈ w.files := hw
      rw [(h.file_valid hother).2.2.1, renameFile, if_pos htaken]
      simp
  intro w hw
  rw [moveListed, Script.andThen_of_stops (heach w hw.taken)]
  exact heach w hw.taken

/-- A file of the move stops at the stuck lock or passes it by. -/
theorem keeps_stuck (h : Ready host move w₀) (listing : Listing) {file other : MovedFile}
    (hfile : file ∈ move.files) (hother : other ∈ move.files) :
    Script.Keeps MoveWorld.apply (Stuck host move file) (moveFiles listing other) := by
  intro w hw hend
  have hsides : ∀ side ∈ sidecars listing other.fromPath w,
      isSidecar other.fromPath side = true := by
    intro side hside
    rw [sidecars, (listing.perm _).mem_iff, List.mem_filter] at hside
    exact hside.2
  rw [Script.final]
  rw [moveFiles] at hend ⊢
  split_ifs at hend ⊢
  · by_cases hlock : sessionLockPath file.fromPath ∈ sidecars listing other.fromPath w
    · exact absurd hend (stops_of_listed h hother hsides hlock w hw)
    · -- The lock is not beside `other`, so neither is its file.
      have hno : isSidecar other.fromPath (sessionLockPath file.fromPath) ≠ true := fun hs =>
        hlock (by rw [sidecars, (listing.perm _).mem_iff, List.mem_filter, AList.mem_keys.symm]
                  exact ⟨hw.lock, hs⟩)
      have hfrom : isSidecar other.fromPath file.fromPath ≠ true := fun hs =>
        hno (isSidecar_trans (h.file_valid hfile).1 hs (isSidecar_sessionLockPath _))
      have hkeep : ∀ path, isSidecar other.fromPath path ≠ true → path ≠ other.fromPath →
          Script.Keeps MoveWorld.apply (fun w => path ∈ w.files)
            (moveListed other (sidecars listing other.fromPath w)) := by
        intro path hs hne
        refine Script.Keeps.andThen (keeps_each_renameFile fun side hside heq => ?_)
          (keeps_renameFile hne)
        exact hs (heq ▸ hsides side hside)
      refine ⟨hkeep _ hfrom (fun heq => ?_) w hw.session hend,
        hkeep _ hno (fun heq => ?_) w hw.lock hend, hkeep _ (fun hs => ?_) (fun heq => ?_) w
          hw.taken hend⟩
      · exact hno (heq ▸ isSidecar_sessionLockPath _)
      · exact fromPath_ne_sessionLockPath (h.file_valid hother).1 heq.symm
      · exact h.destination_ne ⟨other, hother, .inr hs⟩ _ rfl
      · exact h.destination_ne ⟨other, hother, .inl rfl⟩ _ heq
  · exact hw

/-- The move stops at a file whose lock is stuck. -/
theorem stops_stuck (h : Ready host move w₀) (listing : Listing) {file : MovedFile}
    (hfile : file ∈ move.files) :
    Script.Stops (Stuck host move file)
      (Script.each MoveWorld.apply (moveFiles listing) move.files) := by
  refine .each hfile (fun other hother => keeps_stuck h listing hfile hother) fun w hw => ?_
  have hlock : sessionLockPath file.fromPath ∈ sidecars listing file.fromPath w := by
    rw [sidecars, (listing.perm _).mem_iff, List.mem_filter, AList.mem_keys.symm]
    exact ⟨hw.lock, isSidecar_sessionLockPath _⟩
  rw [moveFiles, if_pos hw.session]
  refine stops_of_listed h hfile (fun side hside => ?_) hlock w hw
  rw [sidecars, (listing.perm _).mem_iff, List.mem_filter] at hside
  exact hside.2

/-- Taking a lease only adds names. -/
theorem keeps_holdFile (path : Bytes) (file : MovedFile) :
    Script.Keeps MoveWorld.apply (fun w => path ∈ w.files) (holdFile file) := by
  intro w hw hend
  rw [Script.final]
  rw [holdFile, acquire] at hend ⊢
  split_ifs at hend ⊢
  · rcases hlock : w.files.lookup (sessionLockPath file.fromPath) with - | entry
    · exact (AList.mem_insert _).mpr (.inr hw)
    · rcases entry with record | content | content
      · exact hw
      · exact hw
      · exact hw
  · exact hw

/-- After the leases, the lock of a file that stands is there. -/
theorem lock_of_holdFile {file : MovedFile} (w : MoveWorld) (hw : file.fromPath ∈ w.files) :
    sessionLockPath file.fromPath ∈ (Script.final MoveWorld.apply (holdFile file) w).files := by
  rw [Script.final, holdFile, if_pos hw, acquire]
  rcases hlock : w.files.lookup (sessionLockPath file.fromPath) with - | entry
  · exact (AList.mem_insert _).mpr (.inl rfl)
  · have hmem : sessionLockPath file.fromPath ∈ w.files :=
      AList.lookup_isSome.mp (by rw [hlock]; rfl)
    rcases entry with record | content | content <;> exact hmem

section Move

variable [DoubleText] [DoubleSum]

/-- **A lock that moved without its file stops every recovery.** -/
theorem stops_wholeMove (h : Ready host move w₀) (listing : Listing)
    (hw : Halfway host move w₀ w) (hlocks : ¬LocksInPlace move w) :
    (wholeMove host listing move w).2 ≠ none := by
  simp only [LocksInPlace, not_forall] at hlocks
  obtain ⟨file, hfile, hstands, hgone⟩ := hlocks
  obtain ⟨X, hX, -⟩ := hw
  have hlock := h.moves_sessionLockPath hfile
  have hmoved : sessionLockPath file.fromPath ∈ X := by
    by_contra hout
    exact hgone ((hX.mem_iff h hlock.2).mpr ⟨hlock, hout⟩)
  have htaken : destination host move (sessionLockPath file.fromPath) ∈ w.files := by
    rw [← AList.lookup_isSome, hX.arrived _ hmoved, AList.lookup_isSome]
    exact hlock.1
  have hstops : Script.Stops (Stuck host move file) (carryOutMove host listing move) :=
    (stops_stuck h listing hfile).andThen_left
  refine Script.Stops.andThen_right (P := fun w => file.fromPath ∈ w.files ∧
    destination host move (sessionLockPath file.fromPath) ∈ w.files) (fun w hw hend => ?_) hstops w
    ⟨hstands, htaken⟩
  have hkept : ∀ path, Script.Keeps MoveWorld.apply (fun w => path ∈ w.files) (holdMove move) :=
    fun path => .each fun other _ => keeps_holdFile path other
  refine ⟨hkept _ w hw.1 hend, ?_, hkept _ w hw.2 hend⟩
  exact Script.each_reaches (P := fun w => file.fromPath ∈ w.files)
    (Q := fun w => sessionLockPath file.fromPath ∈ w.files) hfile
    (fun other _ => keeps_holdFile _ other) (fun other _ => keeps_holdFile _ other)
    (fun w hw _ => lock_of_holdFile w hw) hw.1 hend

end Move

end Leases

end UAgent
