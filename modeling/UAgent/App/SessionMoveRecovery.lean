/-
UAgent/App/SessionMoveRecovery.lean

The end of a session move, and its recovery after a crash.

Once the files have arrived, the disk is known by which records have been
rewritten and how far the ledgers and the scheduled runs have followed
(`Late`).  From any such disk the rest of the move comes to the same end
(`triple_settleMove`), provided a rewritten record is not rewritten to
something else.  With that, `recovers_iff` says when recovery finishes a
crashed move.
-/
import UAgent.App.SessionMoveFiles
import UAgent.App.SessionMoveRewrite

namespace UAgent

open Bytes

/-! ### Ledgers -/

/-- What `MoveLedger` leaves of the ledgers. -/
def followLedger (ledgers : AList fun _ : Bytes => Bytes) (ids : Bytes × Bytes) :
    AList fun _ : Bytes => Bytes :=
  if ids.2 ∈ ledgers then ledgers
  else
    match ledgers.lookup ids.1 with
    | some ledger => (ledgers.erase ids.1).insert ids.2 ledger
    | none => ledgers

section Ledgers

variable {ledgers : AList fun _ : Bytes => Bytes} {ids other : Bytes × Bytes}

/-- There is nothing to follow, or it has been followed. -/
def Followed (ledgers : AList fun _ : Bytes => Bytes) (ids : Bytes × Bytes) : Prop :=
  ids.1 ∉ ledgers ∨ ids.2 ∈ ledgers

theorem followLedger_of_followed (h : Followed ledgers ids) : followLedger ledgers ids = ledgers := by
  rw [followLedger]
  split_ifs with hthere
  · rfl
  · rw [AList.lookup_eq_none.mpr (h.resolve_right hthere)]

/-- `MoveLedger` follows its session, or has nothing to do. -/
theorem moveLedger_eq (ids : Bytes × Bytes) (w : MoveWorld) :
    (moveLedger ids w = ([], none) ∧ followLedger w.ledgers ids = w.ledgers) ∨
      ∃ o, moveLedger ids w = ([o], none) ∧
        w.apply o = { w with ledgers := followLedger w.ledgers ids } := by
  by_cases hmoves : ids.1 ∈ w.ledgers ∧ ids.2 ∉ w.ledgers
  · refine .inr ⟨.renameLedger ids.1 ids.2, if_pos hmoves, ?_⟩
    obtain ⟨ledger, hledger⟩ := Option.isSome_iff_exists.mp (AList.lookup_isSome.mpr hmoves.1)
    rw [MoveWorld.apply, followLedger, if_neg hmoves.2, hledger]
  · refine .inl ⟨if_neg hmoves, followLedger_of_followed ?_⟩
    rw [not_and_or, not_not] at hmoves
    exact hmoves

theorem followed_followLedger : Followed (followLedger ledgers ids) ids := by
  rw [followLedger]
  split_ifs with hthere
  · exact .inr hthere
  · rcases hlookup : ledgers.lookup ids.1 with - | ledger
    · exact .inl (AList.lookup_eq_none.mp hlookup)
    · exact .inr ((AList.mem_insert _).mpr (.inl rfl))

/-- Following one session does not undo another. -/
theorem Followed.follow (h : Followed ledgers ids) (hnew : other.2 ≠ ids.1)
    (hold : ids.2 ≠ other.1) : Followed (followLedger ledgers other) ids := by
  rw [followLedger]
  split_ifs with hthere
  · exact h
  · rcases hlookup : ledgers.lookup other.1 with - | ledger
    · exact h
    · rcases h with hgone | hmem
      · refine .inl fun hmem => ?_
        rcases (AList.mem_insert _).mp hmem with heq | hmem
        · exact hnew heq.symm
        · exact hgone (AList.mem_erase.mp hmem).2
      · exact .inr ((AList.mem_insert _).mpr (.inr (AList.mem_erase.mpr ⟨hold, hmem⟩)))

/-- No new id among `ids` is an old one. -/
def Fresh (ids : List (Bytes × Bytes)) : Prop := ∀ a ∈ ids, ∀ b ∈ ids, a.2 ≠ b.1

theorem fresh_movedIds {move : SessionMove} (h : FreshIds move) : Fresh (movedIds move) := by
  intro a ha b hb
  obtain ⟨file, hfile, rfl⟩ := mem_movedIds ha
  obtain ⟨other, hother, rfl⟩ := mem_movedIds hb
  exact h file hfile other hother

/-- What has been followed stays so. -/
theorem followed_foldl {all : List (Bytes × Bytes)} (hfresh : Fresh all)
    {l : List (Bytes × Bytes)} (hl : ∀ a ∈ l, a ∈ all) (hids : ids ∈ all)
    (h : ids ∈ l ∨ Followed ledgers ids) : Followed (l.foldl followLedger ledgers) ids := by
  induction l generalizing ledgers with
  | nil => exact h.resolve_left List.not_mem_nil
  | cons a l ih =>
    have ha := hl a List.mem_cons_self
    refine ih (fun b hb => hl b (List.mem_cons_of_mem _ hb)) ?_
    rcases h with hmem | hdone
    · rcases List.mem_cons.mp hmem with rfl | hmem
      · exact .inr followed_followLedger
      · exact .inl hmem
    · exact .inr (hdone.follow (hfresh _ ha _ hids) (hfresh _ hids _ ha))

end Ledgers

/-! ### Scheduled runs -/

theorem jsonValueStr_eq_nil_of_not_object {j : Json} (h : ¬j.isObject) (key : Bytes) :
    jsonValueStr j key [] = [] := by
  cases j <;> first | rfl | exact absurd rfl h

/-- A run that follows its conversation follows it once. -/
theorem moveRun_moveRun {host : MoveHost} {move : SessionMove} {w : MoveWorld}
    (h : Ready host move w) (run : Json) :
    moveRun move.files (moveRun move.files run) = moveRun move.files run := by
  rcases hfind : move.files.find? fun file =>
      file.fromPath = jsonValueStr run (lit "session_path") [] with - | file
  · simp only [moveRun, hfind]
  · have hfile := List.mem_of_find?_eq_some hfind
    have hpath : file.fromPath = jsonValueStr run (lit "session_path") [] := by
      simpa using List.find?_some hfind
    have hobj : run.isObject := by
      by_contra hno
      rw [jsonValueStr_eq_nil_of_not_object hno] at hpath
      have hext := (h.file_valid hfile).1
      rw [hpath] at hext
      exact absurd hext (by decide)
    have hmoved : moveRun move.files run =
        (run.set (lit "session_path") (.str file.toPath)).set (lit "session_id")
          (.str (sessionIdFor file.toPath)) := by
      simp only [moveRun, hfind]
    have hread : jsonValueStr (moveRun move.files run) (lit "session_path") [] = file.toPath := by
      rw [hmoved, jsonValueStr, Json.get?_set (Json.isObject_set hobj _ _),
        if_neg (by decide), Json.get?_set hobj, if_pos rfl]
    have hnone : (move.files.find? fun other =>
        other.fromPath = jsonValueStr (moveRun move.files run) (lit "session_path") []) = none := by
      rw [List.find?_eq_none]
      intro other hother heq
      rw [hread, decide_eq_true_eq, h.toPath_eq hfile] at heq
      exact h.destination_ne ⟨other, hother, .inl rfl⟩ _ heq.symm
    conv_lhs => rw [moveRun, hnone]

/-! ### Targets -/

section Targets

variable {host : MoveHost} {move : SessionMove} {w₀ w : MoveWorld}

/-- The order and the names of the files, for one that is looked up. -/
theorem mem_of_mem_zipIdx {entry : MovedFile × Nat} (h : entry ∈ move.files.zipIdx) :
    entry.1 ∈ move.files := List.mem_of_getElem? (List.mem_zipIdx_iff_getElem?.mp h)

/-- No two files go to one place. -/
theorem Ready.eq_of_toPath (h : Ready host move w₀) {entry other : MovedFile × Nat}
    (hentry : entry ∈ move.files.zipIdx) (hother : other ∈ move.files.zipIdx)
    (heq : entry.1.toPath = other.1.toPath) : entry = other := by
  have hmem := mem_of_mem_zipIdx hentry
  have hmem' := mem_of_mem_zipIdx hother
  have hfrom : entry.1.fromPath = other.1.fromPath := by
    refine h.apart _ _ (h.moves_fromPath hmem) (h.moves_fromPath hmem') ?_
    rw [← (h.file_valid hmem).2.2.2, ← (h.file_valid hmem').2.2.2, heq]
  have hindex : entry.2 = other.2 := by
    rw [List.mem_zipIdx_iff_getElem?] at hentry hother
    have hat : (move.files.map (·.fromPath))[entry.2]? = (move.files.map (·.fromPath))[other.2]? := by
      rw [List.getElem?_map, List.getElem?_map, hentry, hother, Option.map_some, Option.map_some,
        hfrom]
    obtain ⟨hlt, -⟩ := List.getElem?_eq_some_iff.mp hentry
    exact (List.getElem?_inj (by rwa [List.length_map]) h.once).mp hat
  rw [List.mem_zipIdx_iff_getElem?, hindex] at hentry
  rw [List.mem_zipIdx_iff_getElem?, hentry] at hother
  exact Prod.ext (Option.some.inj hother) hindex

/-- No target is the lock of one. -/
theorem Ready.toPath_ne_lock (h : Ready host move w₀) {file other : MovedFile}
    (hfile : file ∈ move.files) : file.toPath ≠ sessionLockPath other.toPath := by
  refine fromPath_ne_sessionLockPath ?_
  rw [pathExtension, (h.file_valid hfile).2.2.2]
  exact (h.file_valid hfile).1

/-- Taking the lease leaves the session files alone. -/
theorem lookup_acquire (h : Ready host move w₀) (context : Bytes) {file : MovedFile}
    (hfile : file ∈ move.files) (other : MovedFile) (w : MoveWorld) :
    (Script.final MoveWorld.apply (acquire context (sessionLockPath other.toPath)) w).files.lookup
      file.toPath = w.files.lookup file.toPath := by
  rw [Script.final, acquire]
  rcases w.files.lookup (sessionLockPath other.toPath) with - | entry
  · exact AList.lookup_insert_ne (h.toPath_ne_lock hfile)
  · rcases entry with record | content | content <;> rfl

/-- All disks on which everything has arrived hold the same. -/
theorem Arrived.lookup_eq {w' : MoveWorld} (hw : Arrived host move w₀ w)
    (hw' : Arrived host move w₀ w') (path : Bytes) : w.files.lookup path = w'.files.lookup path := by
  by_cases hmoves : Moves move w₀ path
  · rw [hw.gone path hmoves, hw'.gone path hmoves]
  · by_cases hdest : ∃ other, Moves move w₀ other ∧ destination host move other = path
    · obtain ⟨other, hother, rfl⟩ := hdest
      rw [hw.arrived other hother, hw'.arrived other hother]
    · have hout : ∀ other ∈ {path | Moves move w₀ path}, destination host move other ≠ path :=
        fun other hother heq => hdest ⟨other, hother, heq⟩
      rw [hw.rest path hmoves hout, hw'.rest path hmoves hout]

end Targets

/-! ### After the files have arrived -/

section Late

variable {host : MoveHost} {move : SessionMove} {w₀ w : MoveWorld}
  {news : MovedFile × Nat → SessionRecord}

/-- A disk a crash leaves after the files have arrived; `news` are the
rewritten records. -/
structure Late (host : MoveHost) (move : SessionMove) (w₀ : MoveWorld)
    (news : MovedFile × Nat → SessionRecord) (w : MoveWorld) : Prop where
  elsewhere : ∃ w₁, Arrived host move w₀ w₁ ∧ ∀ path,
    (∀ file ∈ move.files, file.toPath ≠ path) → w.files.lookup path = w₁.files.lookup path
  records : ∀ entry ∈ move.files.zipIdx, ∃ record,
    w.files.lookup entry.1.toPath = some (.session record) ∧
      (w₀.files.lookup entry.1.fromPath = some (.session record) ∨ record = news entry)
  ledgers : ∃ k, w.ledgers = ((movedIds move).take k).foldl followLedger w₀.ledgers
  runs : w.runs = w₀.runs ∨ w.runs = w₀.runs.map (moveRun move.files)

/-- The disk when the move is done. -/
structure Finished (host : MoveHost) (move : SessionMove) (w₀ : MoveWorld)
    (news : MovedFile × Nat → SessionRecord) (w : MoveWorld) : Prop where
  elsewhere : ∃ w₁, Arrived host move w₀ w₁ ∧ ∀ path,
    (∀ file ∈ move.files, file.toPath ≠ path) → w.files.lookup path = w₁.files.lookup path
  records : ∀ entry ∈ move.files.zipIdx,
    w.files.lookup entry.1.toPath = some (.session (news entry))
  ledgers : w.ledgers = (movedIds move).foldl followLedger w₀.ledgers
  runs : w.runs = w₀.runs.map (moveRun move.files)

/-- The locks have arrived with the files. -/
theorem Late.lookup_lock (h : Ready host move w₀) (hw : Late host move w₀ news w)
    {file : MovedFile} (hfile : file ∈ move.files) :
    ∃ content, w.files.lookup (sessionLockPath file.toPath) = some (.file content) := by
  obtain ⟨w₁, harrived, hsame⟩ := hw.elsewhere
  obtain ⟨content, hcontent⟩ := h.locks file hfile
  refine ⟨content, ?_⟩
  rw [hsame _ fun other hother => h.toPath_ne_lock hother, h.sessionLockPath_toPath hfile,
    harrived.arrived _ (h.moves_sessionLockPath hfile), hcontent]

/-- Once the files have arrived, the leases and the renames change nothing. -/
theorem Late.idle (h : Ready host move w₀) (listing : Listing) (hw : Late host move w₀ news w) :
    holdMove move w = ([], none) ∧
      Script.each MoveWorld.apply (moveFiles listing) move.files w = ([], none) := by
  have hgone : ∀ file ∈ move.files, file.fromPath ∉ w.files := by
    intro file hfile
    obtain ⟨w₁, harrived, hsame⟩ := hw.elsewhere
    have hmoves := h.moves_fromPath hfile
    rw [← AList.lookup_eq_none, hsame _ fun other hother heq => ?_, harrived.gone _ hmoves]
    rw [h.toPath_eq hother] at heq
    exact h.destination_ne hmoves.2 _ heq
  have hthere : ∀ file ∈ move.files, file.toPath ∈ w.files := by
    intro file hfile
    obtain ⟨index, hindex⟩ := List.mem_iff_getElem?.mp hfile
    have hmem : (file, index) ∈ move.files.zipIdx := List.mem_zipIdx_iff_getElem?.mpr hindex
    obtain ⟨record, hrecord, -⟩ := hw.records _ hmem
    exact AList.lookup_isSome.mp (by rw [hrecord]; rfl)
  refine ⟨Script.each_idle fun file hfile => ?_, Script.each_idle fun file hfile => ?_⟩
  · rw [holdFile, if_neg (hgone file hfile)]
  · rw [moveFiles, if_neg (hgone file hfile), if_pos (hthere file hfile)]

/-! ### Ledgers and runs, at last -/

/-- The records are rewritten, and the ledgers of the ids before `left` have
followed. -/
structure Following (host : MoveHost) (move : SessionMove) (w₀ : MoveWorld)
    (news : MovedFile × Nat → SessionRecord) (left : List (Bytes × Bytes)) (w : MoveWorld) :
    Prop where
  late : Late host move w₀ news w
  records : ∀ entry ∈ move.files.zipIdx,
    w.files.lookup entry.1.toPath = some (.session (news entry))
  followed : ∃ j k, j ≤ k ∧ left = (movedIds move).drop j ∧
    w.ledgers = ((movedIds move).take k).foldl followLedger w₀.ledgers

/-- `MoveLedger`, of one session. -/
theorem triple_moveLedger (hfresh : FreshIds move) (ids : Bytes × Bytes)
    (left : List (Bytes × Bytes)) :
    Script.Triple MoveWorld.apply (Following host move w₀ news (ids :: left)) (moveLedger ids)
      (Late host move w₀ news) (Following host move w₀ news left) := by
  -- The next id is one that had followed before the crash, or the first that had not.
  have hnext : ∀ w, Following host move w₀ news (ids :: left) w → ∃ j k, j ≤ k ∧
      left = (movedIds move).drop j ∧ followLedger w.ledgers ids =
        ((movedIds move).take k).foldl followLedger w₀.ledgers := by
    intro w hw
    obtain ⟨j, k, hjk, hleft, hledgers⟩ := hw.followed
    obtain ⟨hj, hids⟩ : ∃ h : j < (movedIds move).length, (movedIds move)[j] = ids := by
      have hat : ((movedIds move).drop j)[0]? = some ids := by rw [← hleft]; rfl
      rw [List.getElem?_drop, Nat.add_zero] at hat
      exact List.getElem?_eq_some_iff.mp hat
    have hrest : left = (movedIds move).drop (j + 1) := by
      rw [← List.tail_drop, ← hleft, List.tail_cons]
    rcases Nat.lt_or_ge j k with hlt | hge
    · refine ⟨j + 1, k, hlt, hrest, ?_⟩
      have hmem : ids ∈ (movedIds move).take k := by
        have hat : ((movedIds move).take k)[j]? = some ids := by
          rw [List.getElem?_take_of_lt hlt, List.getElem?_eq_getElem hj, hids]
        exact List.mem_of_getElem? hat
      rw [hledgers, followLedger_of_followed]
      exact followed_foldl (fresh_movedIds hfresh) (fun a ha => List.mem_of_mem_take ha)
        (List.mem_of_mem_take hmem) (.inl hmem)
    · obtain rfl : j = k := Nat.le_antisymm hjk hge
      refine ⟨j + 1, j + 1, le_rfl, hrest, ?_⟩
      rw [hledgers, ← hids, List.take_succ_eq_append_getElem hj, List.foldl_append]
      rfl
  refine .step (fun w hw => hw.late) (fun w hw => hw.late) fun w hw => ?_
  obtain ⟨j, k, hjk, hleft, hledgers⟩ := hnext w hw
  rcases moveLedger_eq ids w with ⟨hidle, hsame⟩ | ⟨o, hone, happly⟩
  · exact .inl ⟨hidle, hw.late, hw.records, j, k, hjk, hleft, hsame ▸ hledgers⟩
  · refine .inr ⟨o, hone, ?_⟩
    rw [happly]
    exact ⟨{ hw.late with ledgers := ⟨k, hledgers⟩ }, hw.records, j, k, hjk, hleft, hledgers⟩

/-- `MoveScheduledSessions`, at the end. -/
theorem triple_moveScheduledSessions (h : Ready host move w₀) :
    Script.Triple MoveWorld.apply (Following host move w₀ news []) (moveScheduledSessions move)
      (Late host move w₀ news)
      (fun w => Late host move w₀ news w ∧ Finished host move w₀ news w) := by
  refine .step (fun w hw => hw.late) (fun w hw => hw.1) fun w hw => ?_
  have hall : w.ledgers = (movedIds move).foldl followLedger w₀.ledgers := by
    obtain ⟨j, k, hjk, hleft, hledgers⟩ := hw.followed
    rw [hledgers, List.take_of_length_le ((List.drop_eq_nil_iff.mp hleft.symm).trans hjk)]
  have hruns : w.runs.map (moveRun move.files) = w₀.runs.map (moveRun move.files) := by
    rcases hw.late.runs with heq | heq
    · rw [heq]
    · rw [heq, List.map_map]
      exact List.map_congr_left fun run _ => moveRun_moveRun h run
  rw [moveScheduledSessions]
  split_ifs with hsame
  · have hdone : w.runs = w₀.runs.map (moveRun move.files) := hsame.symm.trans hruns
    exact .inl ⟨rfl, hw.late, hw.late.elsewhere, hw.records, hall, hdone⟩
  · exact .inr ⟨_, rfl, { hw.late with runs := .inr hruns }, hw.late.elsewhere, hw.records, hall,
      hruns⟩

/-! ### The records, first -/

variable [DoubleText] [DoubleSum]

/-- While the records of `left` are still to be rewritten. -/
structure Rewriting (host : MoveHost) (move : SessionMove) (w₀ : MoveWorld)
    (news : MovedFile × Nat → SessionRecord) (left : List (MovedFile × Nat)) (w : MoveWorld) :
    Prop where
  late : Late host move w₀ news w
  part : ∀ entry ∈ left, entry ∈ move.files.zipIdx
  rewrites : ∀ entry ∈ left, ∀ record,
    w.files.lookup entry.1.toPath = some (.session record) → Rewrites host move entry record (news entry)
  rewritten : ∀ entry ∈ move.files.zipIdx,
    entry ∈ left ∨ w.files.lookup entry.1.toPath = some (.session (news entry))

/-- The record of an entry is saved. -/
theorem Rewriting.save (h : Ready host move w₀) {entry : MovedFile × Nat}
    {left : List (MovedFile × Nat)} (hw : Rewriting host move w₀ news (entry :: left) w)
    (hnew : ∀ other ∈ left, other ≠ entry) :
    Rewriting host move w₀ news left (w.apply (.save entry.1.toPath (news entry))) := by
  have hentry := hw.part entry List.mem_cons_self
  have hself : (w.apply (.save entry.1.toPath (news entry))).files.lookup entry.1.toPath =
      some (.session (news entry)) := AList.lookup_insert _
  have hother : ∀ path, path ≠ entry.1.toPath →
      (w.apply (.save entry.1.toPath (news entry))).files.lookup path = w.files.lookup path :=
    fun path hne => AList.lookup_insert_ne hne
  refine ⟨⟨?_, fun other hmem => ?_, hw.late.ledgers, hw.late.runs⟩, ?_, ?_, fun other hmem => ?_⟩
  · obtain ⟨w₁, harrived, hsame⟩ := hw.late.elsewhere
    refine ⟨w₁, harrived, fun path hpath => ?_⟩
    rw [hother path (hpath entry.1 (mem_of_mem_zipIdx hentry)).symm]
    exact hsame path hpath
  · by_cases heq : other.1.toPath = entry.1.toPath
    · obtain rfl := h.eq_of_toPath hmem hentry heq
      exact ⟨_, hself, .inr rfl⟩
    · rw [hother _ heq]
      exact hw.late.records other hmem
  · exact fun other hmem => hw.part other (List.mem_cons_of_mem _ hmem)
  · intro other hmem record hrecord
    have hmem' := List.mem_cons_of_mem entry hmem
    have hne : other.1.toPath ≠ entry.1.toPath := fun heq =>
      hnew other hmem (h.eq_of_toPath (hw.part other hmem') hentry heq)
    rw [hother _ hne] at hrecord
    exact hw.rewrites other hmem' record hrecord
  · by_cases heq : other.1.toPath = entry.1.toPath
    · obtain rfl := h.eq_of_toPath hmem hentry heq
      exact .inr hself
    · rw [hother _ heq]
      refine (hw.rewritten other hmem).imp_left fun hin => ?_
      exact (List.mem_cons.mp hin).resolve_left fun hsame => heq (hsame ▸ rfl)

/-- `Rewrite`, of one record. -/
theorem triple_rewrite (h : Ready host move w₀) (entry : MovedFile × Nat)
    (left : List (MovedFile × Nat)) (hnew : ∀ other ∈ left, other ≠ entry) :
    Script.Triple MoveWorld.apply (Rewriting host move w₀ news (entry :: left))
      (rewrite host move entry) (Late host move w₀ news) (Rewriting host move w₀ news left) := by
  have hlease : Script.Triple MoveWorld.apply (Rewriting host move w₀ news (entry :: left))
      (acquire (cannotUpdate entry.1) (sessionLockPath entry.1.toPath)) (Late host move w₀ news)
      (Rewriting host move w₀ news (entry :: left)) := by
    refine .step (fun w hw => hw.late) (fun w hw => hw.late) fun w hw => .inl ⟨?_, hw⟩
    obtain ⟨content, hcontent⟩ :=
      hw.late.lookup_lock h (mem_of_mem_zipIdx (hw.part entry List.mem_cons_self))
    exact acquire_of_file hcontent
  refine hlease.andThen (.step (fun w hw => hw.late) (fun w hw => hw.late) fun w hw => ?_)
  have hentry := hw.part entry List.mem_cons_self
  obtain ⟨record, hrecord, -⟩ := hw.late.records entry hentry
  rw [rewriteHeld, hrecord]
  dsimp only
  rcases hw.rewrites entry List.mem_cons_self record hrecord with ⟨hsame, other, hother⟩ | hsaved
  · refine .inl ⟨by rw [hother]; rfl, hw.late, ?_, ?_, fun other hmem => ?_⟩
    · exact fun other hmem => hw.part other (List.mem_cons_of_mem _ hmem)
    · exact fun other hmem => hw.rewrites other (List.mem_cons_of_mem _ hmem)
    · rcases hw.rewritten other hmem with hin | hdone
      · rcases List.mem_cons.mp hin with rfl | hin
        · exact .inr (by rw [hrecord, hsame])
        · exact .inl hin
      · exact .inr hdone
  · obtain ⟨hnews, text, htext⟩ := hsaved
    refine .inr ⟨.save entry.1.toPath (news entry), ?_, hw.save h hnew⟩
    rw [hnews]
    dsimp only
    rw [htext]
    rfl

/-- The rewriting of all records. -/
theorem triple_each_rewrite (h : Ready host move w₀) :
    Script.Triple MoveWorld.apply (Rewriting host move w₀ news move.files.zipIdx)
      (.each MoveWorld.apply (rewrite host move) move.files.zipIdx) (Late host move w₀ news)
      (Rewriting host move w₀ news []) := by
  have hnodup : move.files.zipIdx.Nodup := by
    have hindices : (move.files.zipIdx.map Prod.snd).Nodup := by
      rw [List.zipIdx_map_snd]
      exact List.nodup_range'
    exact .of_map _ hindices
  have hloop : ∀ left : List (MovedFile × Nat), left.Nodup →
      Script.Triple MoveWorld.apply (Rewriting host move w₀ news left)
        (.each MoveWorld.apply (rewrite host move) left) (Late host move w₀ news)
        (Rewriting host move w₀ news []) := by
    intro left
    induction left with
    | nil => exact fun _ => .done fun w hw => hw.late
    | cons entry left ih =>
      intro hleft
      obtain ⟨hout, hrest⟩ := List.nodup_cons.mp hleft
      exact (triple_rewrite h entry left fun other hmem heq => hout (heq ▸ hmem)).andThen
        (ih hrest)
  exact hloop _ hnodup

/-- All that follows once the files have arrived. -/
theorem triple_settleMove (h : Ready host move w₀) (hfresh : FreshIds move) :
    Script.Triple MoveWorld.apply (Rewriting host move w₀ news move.files.zipIdx)
      (settleMove host move) (Late host move w₀ news)
      (fun w => Late host move w₀ news w ∧ Finished host move w₀ news w) := by
  have hledgers : Script.Triple MoveWorld.apply (Following host move w₀ news (movedIds move))
      (.each MoveWorld.apply moveLedger (movedIds move)) (Late host move w₀ news)
      (Following host move w₀ news []) :=
    .each (fun w hw => hw.late) (fun ids left => triple_moveLedger hfresh ids left) (movedIds move)
  refine (triple_each_rewrite h).andThen (.andThen (R := Following host move w₀ news [])
    (hledgers.consequence (fun w hw => ⟨hw.late, fun entry hmem => ?_, ?_⟩) (fun _ => id)
      fun _ => id) (triple_moveScheduledSessions h))
  · exact (hw.rewritten entry hmem).resolve_left List.not_mem_nil
  · obtain ⟨k, hk⟩ := hw.late.ledgers
    exact ⟨0, k, Nat.zero_le k, rfl, hk⟩

end Late

/-! ### The journal -/

/-- The journal holds the move. -/
theorem moveFromJson_moveJson {history : Bytes} {move : SessionMove}
    (h : validMove history move = true) :
    moveFromJson history (moveJson move) = some move := by
  have hfiles : jsonArray (moveJson move) (lit "files") = some (move.files.map fun file =>
      .ofFields [(lit "from", .str file.fromPath), (lit "to", .str file.toPath)]) := rfl
  have hformat : jsonValueInt64 (moveJson move) (lit "format") 0 = kMoveFormat := rfl
  have hparsed : (⟨jsonValueStr (moveJson move) (lit "from") [],
      jsonValueStr (moveJson move) (lit "to") [], jsonValueStr (moveJson move) (lit "note") [],
      (move.files.map fun file => Json.ofFields [(lit "from", .str file.fromPath),
        (lit "to", .str file.toPath)]).map fun item =>
          ⟨jsonValueStr item (lit "from") [], jsonValueStr item (lit "to") []⟩⟩ : SessionMove) =
      move := by
    have hmap : ∀ files : List MovedFile, (files.map fun file => Json.ofFields
        [(lit "from", .str file.fromPath), (lit "to", .str file.toPath)]).map (fun item =>
          (⟨jsonValueStr item (lit "from") [], jsonValueStr item (lit "to") []⟩ : MovedFile)) =
        files := by
      intro files
      rw [List.map_map]
      exact List.map_id files
    rw [hmap]
    rfl
  rw [moveFromJson, hfiles]
  dsimp only
  rw [if_neg (not_not.mpr hformat), hparsed, if_pos h]

/-! ### Disks that hold the same -/

/-- Two disks that hold the same, with the same ledgers and scheduled runs. -/
def SameWorld (w w' : MoveWorld) : Prop :=
  (∀ path, w.files.lookup path = w'.files.lookup path) ∧ w.ledgers = w'.ledgers ∧ w.runs = w'.runs

theorem Finished.sameWorld {host : MoveHost} {move : SessionMove} {w₀ w w' : MoveWorld}
    {news : MovedFile × Nat → SessionRecord} (hw : Finished host move w₀ news w)
    (hw' : Finished host move w₀ news w') : SameWorld w w' := by
  refine ⟨fun path => ?_, hw.ledgers.trans hw'.ledgers.symm, hw.runs.trans hw'.runs.symm⟩
  by_cases htarget : ∃ file ∈ move.files, file.toPath = path
  · obtain ⟨file, hfile, rfl⟩ := htarget
    obtain ⟨index, hindex⟩ := List.mem_iff_getElem?.mp hfile
    have hmem : (file, index) ∈ move.files.zipIdx := List.mem_zipIdx_iff_getElem?.mpr hindex
    exact (hw.records _ hmem).trans (hw'.records _ hmem).symm
  · have hout : ∀ file ∈ move.files, file.toPath ≠ path := fun file hfile heq =>
      htarget ⟨file, hfile, heq⟩
    obtain ⟨w₁, harrived, hsame⟩ := hw.elsewhere
    obtain ⟨w₂, harrived', hsame'⟩ := hw'.elsewhere
    rw [hsame path hout, hsame' path hout, harrived.lookup_eq harrived']

/-! ### The whole move -/

section Whole

/-- Before anything has moved. -/
theorem halfway_start (host : MoveHost) (move : SessionMove) (w : MoveWorld) :
    Halfway host move w w := ⟨∅, .start host move w, fun _ _ hmem => absurd hmem (Set.notMem_empty _)⟩

variable [DoubleText] [DoubleSum] {host : MoveHost} {listing : Listing} {move : SessionMove}
  {w₀ w : MoveWorld} {news : MovedFile × Nat → SessionRecord}

/-- Every record is rewritten to its entry of `news`. -/
def RewritesAll (host : MoveHost) (move : SessionMove) (w₀ : MoveWorld)
    (news : MovedFile × Nat → SessionRecord) : Prop :=
  ∀ entry ∈ move.files.zipIdx, ∀ old, w₀.files.lookup entry.1.fromPath = some (.session old) →
    Rewrites host move entry old (news entry)

/-- A record whose rewriting did not stop has been rewritten. -/
theorem exists_rewrites {entry : MovedFile × Nat} {old : SessionRecord}
    (hold : w.files.lookup entry.1.toPath = some (.session old))
    (hend : (rewriteHeld host move entry.2 entry.1 w).2 = none) :
    ∃ new, Rewrites host move entry old new := by
  rw [rewriteHeld, hold] at hend
  dsimp only at hend
  rcases hrecord : rewriteRecord host move entry.2 entry.1 old with failed | ⟨record, changed⟩
  · rw [hrecord] at hend
    cases hend
  · rw [hrecord] at hend
    cases changed with
    | false => exact ⟨old, .inl ⟨rfl, record, hrecord⟩⟩
    | true =>
      refine ⟨record, .inr ⟨hrecord, ?_⟩⟩
      rcases htext : sessionText record with e | text
      · simp [htext] at hend
      · exact ⟨text, rfl⟩

/-- Rewriting one record leaves the others alone. -/
theorem lookup_rewriteHeld {index : Nat} {file : MovedFile} {path : Bytes}
    (hne : path ≠ file.toPath) (w : MoveWorld) :
    (Script.final MoveWorld.apply (rewriteHeld host move index file) w).files.lookup path =
      w.files.lookup path := by
  rw [Script.final, rewriteHeld]
  split
  · split
    · rfl
    · split_ifs
      · rfl
      · split
        · rfl
        · exact AList.lookup_insert_ne hne
  · rfl

/-- A move that comes to its end has rewritten every record. -/
theorem exists_rewritesAll (h : Ready host move w₀)
    (hend : (wholeMove host listing move w₀).2 = none) : ∃ news, RewritesAll host move w₀ news := by
  have hentry : ∀ entry ∈ move.files.zipIdx, ∃ new, ∀ old,
      w₀.files.lookup entry.1.fromPath = some (.session old) → Rewrites host move entry old new := by
    intro entry hmem
    have hfile := mem_of_mem_zipIdx hmem
    obtain ⟨old, hold⟩ := h.sessions entry.1 hfile
    suffices hnew : ∃ new, Rewrites host move entry old new by
      obtain ⟨new, hnew⟩ := hnew
      refine ⟨new, fun other hother => ?_⟩
      obtain rfl : old = other := Entry.session.inj (Option.some.inj (hold.symm.trans hother))
      exact hnew
    obtain ⟨-, hmove⟩ := Script.ends_of_andThen hend
    obtain ⟨-, hsettle⟩ := Script.ends_of_andThen hmove
    obtain ⟨hrewrite, -⟩ := Script.ends_of_andThen hsettle
    have hlocks : LocksInPlace move w₀ := fun file hfile _ => (h.moves_sessionLockPath hfile).1
    have hstart := halfway_start host move w₀
    have hidle := holdMove_of_locksInPlace h hstart hlocks
    have hfinal : Script.final MoveWorld.apply (holdMove move) w₀ = w₀ := by
      rw [Script.final, hidle, Script.perform_nil]
    rw [hfinal] at hrewrite
    have harrived := (triple_each_moveFiles h listing w₀ hstart).2.2
    -- The record stays as it was until its own turn comes.
    refine Script.each_reaches (P := fun w => w.files.lookup entry.1.toPath = some (.session old) ∨
      ∃ new, Rewrites host move entry old new) (Q := fun _ => ∃ new, Rewrites host move entry old new)
      hmem (fun other hother w hw hends => ?_) (fun _ _ _ hnew _ => hnew) (fun w hw hends => ?_)
      (.inl ?_) hrewrite
    · rcases hw with hw | hnew
      · obtain ⟨hlease, hheld⟩ := Script.ends_of_andThen hends
        have hsame := (lookup_acquire h (cannotUpdate other.1) hfile other.1 w).trans hw
        by_cases heq : entry.1.toPath = other.1.toPath
        · obtain rfl := h.eq_of_toPath hmem hother heq
          exact .inr (exists_rewrites hsame hheld)
        · left
          rw [Script.final, rewrite, Script.andThen_of_ends hlease, Script.perform_append]
          exact (lookup_rewriteHeld heq _).trans hsame
      · exact .inr hnew
    · rcases hw with hw | hnew
      · obtain ⟨-, hheld⟩ := Script.ends_of_andThen hends
        exact exists_rewrites ((lookup_acquire h _ hfile _ w).trans hw) hheld
      · exact hnew
    · rw [h.toPath_eq hfile, harrived.arrived _ (h.moves_fromPath hfile), hold]
  have : Nonempty SessionRecord := ⟨{ cwd := [], model := [], sessionId := [], title := [] }, {}⟩
  choose! news hnews using hentry
  exact ⟨news, hnews⟩

/-- The records that have arrived are to be rewritten. -/
theorem Arrived.rewriting (h : Ready host move w₀) (hnews : RewritesAll host move w₀ news)
    (hw : Arrived host move w₀ w) : Rewriting host move w₀ news move.files.zipIdx w := by
  have hlookup : ∀ entry ∈ move.files.zipIdx,
      w.files.lookup entry.1.toPath = w₀.files.lookup entry.1.fromPath := by
    intro entry hmem
    have hfile := mem_of_mem_zipIdx hmem
    rw [h.toPath_eq hfile, hw.arrived _ (h.moves_fromPath hfile)]
  refine ⟨⟨⟨w, hw, fun _ _ => rfl⟩, fun entry hmem => ?_, ⟨0, hw.ledgers⟩, .inl hw.runs⟩,
    fun _ => id, fun entry hmem record hrecord => ?_, fun _ => .inl⟩
  · obtain ⟨old, hold⟩ := h.sessions entry.1 (mem_of_mem_zipIdx hmem)
    exact ⟨old, (hlookup entry hmem).trans hold, .inl hold⟩
  · rw [hlookup entry hmem] at hrecord
    exact hnews entry hmem record hrecord

/-- The move, from its beginning. -/
theorem triple_wholeMove (h : Ready host move w₀) (listing : Listing) (hfresh : FreshIds move)
    (hnews : RewritesAll host move w₀ news) :
    Script.Triple MoveWorld.apply (· = w₀) (wholeMove host listing move)
      (fun w => Halfway host move w₀ w ∨ Late host move w₀ news w) (Finished host move w₀ news) := by
  have hlocks : LocksInPlace move w₀ := fun file hfile _ => (h.moves_sessionLockPath hfile).1
  have hhold : Script.Triple MoveWorld.apply (· = w₀) (holdMove move)
      (fun w => Halfway host move w₀ w ∨ Late host move w₀ news w) (Halfway host move w₀) := by
    have hstart := halfway_start host move w₀
    refine .step (fun w hw => .inl (hw ▸ hstart)) (fun w => .inl) fun w hw => .inl ?_
    rw [hw]
    exact ⟨holdMove_of_locksInPlace h hstart hlocks, hstart⟩
  refine hhold.andThen (.andThen
    ((triple_each_moveFiles h listing).consequence (fun _ => id) (fun _ => .inl) (fun _ => id))
    ((triple_settleMove h hfresh).consequence (fun w hw => hw.rewriting h hnews) (fun _ => .inr)
      fun _ => And.right))

/-! ### Recovery -/

/-- From a half-moved disk with its locks in place. -/
theorem triple_wholeMove_of_halfway (h : Ready host move w₀) (listing : Listing) (hfresh : FreshIds move)
    (hnews : RewritesAll host move w₀ news) :
    Script.Triple MoveWorld.apply (fun w => Halfway host move w₀ w ∧ LocksInPlace move w)
      (wholeMove host listing move) (fun _ => True) (Finished host move w₀ news) := by
  have hhold : Script.Triple MoveWorld.apply (fun w => Halfway host move w₀ w ∧ LocksInPlace move w)
      (holdMove move) (fun _ => True) (Halfway host move w₀) :=
    .step (fun _ _ => trivial) (fun _ _ => trivial) fun w hw =>
      .inl ⟨holdMove_of_locksInPlace h hw.1 hw.2, hw.1⟩
  exact hhold.andThen (.andThen
    ((triple_each_moveFiles h listing).consequence (fun _ => id) (fun _ _ => trivial) fun _ => id)
    ((triple_settleMove h hfresh).consequence (fun w hw => hw.rewriting h hnews)
      (fun _ _ => trivial) fun _ => And.right))

/-- From a disk on which the files have arrived, if the records there are
rewritten to what they were to become. -/
theorem triple_wholeMove_of_late (h : Ready host move w₀) (listing : Listing) (hfresh : FreshIds move) :
    Script.Triple MoveWorld.apply (Rewriting host move w₀ news move.files.zipIdx)
      (wholeMove host listing move) (fun _ => True) (Finished host move w₀ news) := by
  have hidle : ∀ {script : MoveScript},
      (∀ w, Rewriting host move w₀ news move.files.zipIdx w → script w = ([], none)) →
      Script.Triple MoveWorld.apply (Rewriting host move w₀ news move.files.zipIdx) script
        (fun _ => True) (Rewriting host move w₀ news move.files.zipIdx) := fun hscript =>
    .step (fun _ _ => trivial) (fun _ _ => trivial) fun w hw => .inl ⟨hscript w hw, hw⟩
  exact (hidle fun w hw => (hw.late.idle h listing).1).andThen (.andThen
    (hidle fun w hw => (hw.late.idle h listing).2)
    ((triple_settleMove h hfresh).consequence (fun _ => id) (fun _ _ => trivial)
      fun _ => And.right))

/-- Whether recovery, on what a crash left of a move from `w₀`, reports no
failure and comes to the end of the uninterrupted move. -/
def Recovers (host : MoveHost) (listing relisting : Listing) (move : SessionMove)
    (w₀ crashed : MoveWorld) : Prop :=
  (recoverMove host relisting (moveJson move) crashed).2 = none ∧
    SameWorld (Script.final MoveWorld.apply (recoverMove host relisting (moveJson move)) crashed)
      (Script.final MoveWorld.apply (wholeMove host listing move) w₀)

/-- No record that the crash left rewritten holds a renamed text. -/
def CleanAfter (move : SessionMove) (w₀ crashed : MoveWorld) : Prop :=
  ∀ file ∈ move.files, ∀ record, crashed.files.lookup file.toPath = some (.session record) →
    w₀.files.lookup file.fromPath = some (.session record) ∨ Clean move file record.state

/-- No session file stands at its old place. -/
def Gone (move : SessionMove) (w : MoveWorld) : Prop := ∀ file ∈ move.files, file.fromPath ∉ w.files

/-- Nothing that follows the renames puts a session file back. -/
theorem invariant_gone (h : Ready host move w₀) :
    Script.Invariant MoveWorld.apply (Gone move) (settleMove host move) := by
  have hinsert : ∀ {w : MoveWorld} {path : Bytes} {entry : Entry}, Gone move w →
      (∀ file ∈ move.files, file.fromPath ≠ path) →
      Gone move { w with files := w.files.insert path entry } := by
    intro w path entry hw hne file hfile hmem
    rcases (AList.mem_insert _).mp hmem with heq | hmem
    · exact hne file hfile heq
    · exact hw file hfile hmem
  refine .andThen (.each fun entry hentry => .andThen (.step fun w hw => ?_)
    (.step fun w hw => ?_)) (.andThen (.each fun ids _ => .step fun w hw => ?_)
      (.step fun w hw => ?_))
  · rw [acquire]
    rcases w.files.lookup (sessionLockPath entry.1.toPath) with - | found
    · exact .inr ⟨_, rfl, hinsert hw fun file hfile =>
        fromPath_ne_sessionLockPath (h.file_valid hfile).1⟩
    · rcases found with record | content | content <;> exact .inl rfl
  · rw [rewriteHeld]
    split
    · split
      · exact .inl rfl
      · split_ifs
        · exact .inl rfl
        · split
          · exact .inl rfl
          · refine .inr ⟨_, rfl, hinsert hw fun file hfile heq => ?_⟩
            rw [h.toPath_eq (mem_of_mem_zipIdx hentry)] at heq
            exact h.destination_ne ⟨file, hfile, .inl rfl⟩ _ heq.symm
    · exact .inl rfl
  · rcases moveLedger_eq ids w with ⟨hidle, -⟩ | ⟨o, hone, happly⟩
    · exact .inl (by rw [hidle])
    · exact .inr ⟨o, by rw [hone], by rw [happly]; exact hw⟩
  · rw [moveScheduledSessions]
    split_ifs
    · exact .inl rfl
    · exact .inr ⟨_, rfl, hw⟩

/-- Where a crash can come: among the renames, or after them. -/
theorem cut_wholeMove (h : Ready host move w₀) (listing : Listing) (n : Nat) :
    Halfway host move w₀ (Script.cut MoveWorld.apply (wholeMove host listing move) n w₀) ∨
      ∃ w, Arrived host move w₀ w ∧ ∃ k,
        Script.cut MoveWorld.apply (wholeMove host listing move) n w₀ =
          Script.cut MoveWorld.apply (settleMove host move) k w := by
  have hlocks : LocksInPlace move w₀ := fun file hfile _ => (h.moves_sessionLockPath hfile).1
  have hstart := halfway_start host move w₀
  have hhold := holdMove_of_locksInPlace h hstart hlocks
  have hwhole : wholeMove host listing move w₀ = carryOutMove host listing move w₀ := by
    rw [wholeMove, Script.andThen_of_ends (by rw [hhold]), Script.final, hhold]
    rfl
  obtain ⟨-, hcut, hend⟩ := triple_each_moveFiles h listing w₀ hstart
  rw [Script.cut, hwhole, ← Script.cut]
  rcases Script.cut_andThen MoveWorld.apply
    (.each MoveWorld.apply (moveFiles listing) move.files) (settleMove host move) n w₀
    with ⟨k, heq⟩ | ⟨-, k, heq⟩
  · exact .inl (heq ▸ hcut k)
  · exact .inr ⟨_, hend, k, heq⟩

/-- **When recovery finishes a crashed move.** It never does once a lock has
moved and its session file has not.  Otherwise it does, of a move that comes
to its end without the crash, if no new id is an old one and no rewritten
record holds a renamed text. -/
theorem recovers_iff_locksInPlace (h : Ready host move w₀) (listing relisting : Listing) (n : Nat) :
    let crashed := Script.cut MoveWorld.apply (wholeMove host listing move) n w₀
    (Recovers host listing relisting move w₀ crashed → LocksInPlace move crashed) ∧
      ((wholeMove host listing move w₀).2 = none → FreshIds move → CleanAfter move w₀ crashed →
        LocksInPlace move crashed → Recovers host listing relisting move w₀ crashed) := by
  intro crashed
  have hrecover : recoverMove host relisting (moveJson move) = wholeMove host relisting move := by
    rw [recoverMove, moveFromJson_moveJson h.valid]
  refine ⟨fun hrecovers => ?_, fun hend hfresh hclean hlocks => ?_⟩
  · rcases cut_wholeMove h listing n with hhalf | ⟨w, hw, k, heq⟩
    · by_contra hlocks
      exact stops_wholeMove h relisting hhalf hlocks (hrecover ▸ hrecovers.1)
    · have hgone : Gone move w := fun file hfile =>
        AList.lookup_eq_none.mp (hw.gone _ (h.moves_fromPath hfile))
      have hcut := invariant_gone h w hgone k
      rw [← heq] at hcut
      exact fun file hfile hstands => absurd hstands (hcut file hfile)
  · obtain ⟨news, hnews⟩ := exists_rewritesAll h hend
    have hdone := (triple_wholeMove h listing hfresh hnews w₀ rfl).2.2
    suffices hagain : (wholeMove host relisting move crashed).2 = none ∧ Finished host move w₀ news
        (Script.final MoveWorld.apply (wholeMove host relisting move) crashed) by
      rw [Recovers, hrecover]
      exact ⟨hagain.1, hagain.2.sameWorld hdone⟩
    rcases (triple_wholeMove h listing hfresh hnews w₀ rfl).2.1 n with hhalf | hlate
    · obtain ⟨hends, -, hfinal⟩ := triple_wholeMove_of_halfway h relisting hfresh hnews
        crashed ⟨hhalf, hlocks⟩
      exact ⟨hends, hfinal⟩
    · -- What was rewritten before the crash is rewritten to itself.
      have hrewriting : Rewriting host move w₀ news move.files.zipIdx crashed := by
        refine ⟨hlate, fun _ => id, fun entry hmem record hrecord => ?_, fun _ => .inl⟩
        have hfile := mem_of_mem_zipIdx hmem
        rcases hclean entry.1 hfile record hrecord with hold | hfree
        · exact hnews entry hmem record hold
        · obtain ⟨kept, hkept, hwas⟩ := hlate.records entry hmem
          obtain rfl : kept = record :=
            Entry.session.inj (Option.some.inj (hkept.symm.trans hrecord))
          rcases hwas with hold | rfl
          · exact hnews entry hmem _ hold
          · obtain ⟨old, hold⟩ := h.sessions entry.1 hfile
            exact (hnews entry hmem old hold).again hfresh hfree
      obtain ⟨hends, -, hfinal⟩ :=
        triple_wholeMove_of_late h relisting hfresh crashed hrewriting
      exact ⟨hends, hfinal⟩

end Whole

/-! ### A crash that recovery does not finish -/

/-- A host that keeps its histories under `/h`. -/
def plainHost : MoveHost := ⟨lit "/h", id, []⟩

/-- The listing that leaves the names as they come. -/
def plainListing : Listing := ⟨id, fun _ => .refl _⟩

/-- The session file `/h/a/x.json` on its way to the folder `b`. -/
def plainFile : MovedFile :=
  ⟨lit "/h/a/x.json", inDirectory (inDirectory (lit "/h") (workspaceId (lit "b"))) (lit "x.json")⟩

/-- The move of that one session from the folder `a`. -/
def plainMove : SessionMove := ⟨lit "a", lit "b", lit "Moved.", [plainFile]⟩

/-- The session. -/
def plainRecord : SessionRecord where
  metadata := { cwd := lit "a", model := [], sessionId := lit "x", title := [] }
  state :=
    { messages := .arr [.obj [(lit "content", .str (lit "Be brief.")),
        (lit "role", .str (lit "system"))]]
      messageKinds := [.system] }

/-- The disk before the move: the session and its lock. -/
def plainWorld : MoveWorld where
  files := ((∅ : AList _).insert (lit "/h/a/x.json.lock") (.file [])).insert (lit "/h/a/x.json")
    (.session plainRecord)
  ledgers := ∅
  runs := []

theorem ready_plain : Ready plainHost plainMove plainWorld := by
  have hfree : ∀ path ∈ plainWorld.files.keys,
      destination plainHost plainMove path ∉ plainWorld.files := by decide
  have hapart : ∀ path ∈ plainWorld.files.keys, ∀ other ∈ plainWorld.files.keys,
      fileName path = fileName other → path = other := by decide
  refine ⟨by decide, by decide, ?_, ?_, fun path hpath => hfree path hpath.1,
    fun path other hpath hother => hapart path hpath.1 other hother.1⟩
  · intro file hfile
    obtain rfl := List.mem_singleton.mp hfile
    exact ⟨plainRecord, by decide⟩
  · intro file hfile
    obtain rfl := List.mem_singleton.mp hfile
    exact ⟨[], by decide⟩

/-- Cut off once everything has been done but the journal's removal, the move
of the example is recovered. -/
theorem recovers_plain :
    let _ := Json.bitsText
    let _ := zeroSum
    Recovers plainHost plainListing plainListing plainMove plainWorld
      (Script.cut MoveWorld.apply (wholeMove plainHost plainListing plainMove) 3 plainWorld) := by
  let _ := Json.bitsText
  let _ := zeroSum
  have hclean : ∀ record ∈ ((Script.cut MoveWorld.apply
      (wholeMove plainHost plainListing plainMove) 3 plainWorld).files.lookup
        plainFile.toPath).bind Entry.record?, Clean plainMove plainFile record.state := by
    decide +kernel
  refine (recovers_iff_locksInPlace ready_plain plainListing plainListing 3).2 (by decide +kernel)
    (by decide +kernel) ?_ (by decide +kernel)
  intro file hfile record hrecord
  obtain rfl := List.mem_singleton.mp hfile
  exact .inr (hclean record (by rw [hrecord]; rfl))

/-- Cut off after the lock's rename, it is not. -/
theorem not_recovers_plain :
    ¬∀ (_ : DoubleText) (_ : DoubleSum) (host : MoveHost) (listing relisting : Listing)
      (move : SessionMove) (w : MoveWorld), Ready host move w →
        (wholeMove host listing move w).2 = none → ∀ n, Recovers host listing relisting move w
          (Script.cut MoveWorld.apply (wholeMove host listing move) n w) := by
  intro hall
  have hstopped := (hall Json.bitsText zeroSum plainHost plainListing plainListing plainMove
    plainWorld ready_plain (by decide +kernel) 1).1
  exact absurd hstopped (by decide)

end UAgent
