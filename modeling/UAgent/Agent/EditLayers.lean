/-
UAgent/Agent/EditLayers.lean

What an `EditJournal` knows of one file: a stack of layers, one for each turn
that changed it, with the file before the turn's first change and after its
last (`Layered`).  Recording a change is the change of the stack in
`UAgent.Base.UndoLayers` (`Layered.change`), so a run of changes makes the
layers of what its turns left (`layered_changes`).
-/
import UAgent.Agent.UndoBudget
import UAgent.Base.UndoLayers

namespace UAgent

open Bytes

/-! ### Files and their changes -/

/-- What a path names, whatever its mode. -/
def DiskNode.unmoded : DiskNode → DiskNode
  | .regular content _ => .regular content 0
  | node => node

namespace DiskNode

variable {a b : DiskNode} {content : Bytes} {mode : Nat}

theorem eq_absent_of_unmoded (h : a.unmoded = b.unmoded) (ha : a = .absent) : b = .absent := by
  subst ha
  rcases b with - | ⟨content, mode⟩ | -
  · rfl
  · exact absurd h.symm (by simp [unmoded])
  · exact absurd h (by simp [unmoded])

theorem eq_regular_of_unmoded (h : a.unmoded = b.unmoded) (ha : a = .regular content mode) :
    ∃ mode', b = .regular content mode' := by
  subst ha
  rcases b with - | ⟨content', mode'⟩ | -
  · exact absurd h (by simp [unmoded])
  · refine ⟨mode', ?_⟩
    rw [(DiskNode.regular.inj h).1]
  · exact absurd h (by simp [unmoded])

end DiskNode

/-- A hash an effect carries is of what the change left. -/
def Leaves (hash : Bytes) : DiskNode → Prop
  | .absent => hash = []
  | .regular content _ => hash = hashHex content
  | .other => False

/-- A change of a file and the effect the tool reports. -/
structure EditChange where
  turn : Int
  effect : FileEffect
  after : DiskNode

namespace EditChange

/-- The effect says what the change did, and the file's blob is kept: its name
is no other file's of the turn. -/
structure Ok (s : EditState) (c : EditChange) : Prop where
  known : s.files c.effect.path ≠ .other
  existed : c.effect.existed = true ↔ s.files c.effect.path ≠ .absent
  before : ∀ content, c.effect.before = some content →
    ∃ mode, s.files c.effect.path = .regular content mode
  leaves : Leaves c.effect.afterHash c.after
  kept : ∀ entry ∈ s.journal.entriesOf c.turn, hashHex entry.path = hashHex c.effect.path →
    entry.path = c.effect.path

end EditChange

namespace EditState

open EditJournal

variable {displayPath : Bytes → Bytes} {s : EditState} {turn : Int} {name path : Bytes}
  {editFileBytes : Nat} {io : EditIo}

/-- The file is changed and the change recorded. -/
def change (s : EditState) (c : EditChange) : EditState :=
  { s.record c.turn c.effect none with files := Function.update s.files c.effect.path c.after }

/-! ### Blob names -/

theorem blobName_eq {turn turn' : Int} {path path' : Bytes}
    (h : blobName turn path = blobName turn' path') : turn = turn' ∧ hashHex path = hashHex path' := by
  have hlength : (hashHex path).length = (hashHex path').length := by
    rw [length_hashHex, length_hashHex]
  obtain ⟨hturn, hhash⟩ := List.append_inj' h hlength
  exact ⟨Json.decimalInt_injective (List.append_cancel_right hturn), hhash⟩

theorem blobName_ne_indexName : blobName turn path ≠ indexName := by
  intro h
  obtain ⟨c, hc, hle⟩ := head_blobName turn path
  rw [h] at hc
  obtain rfl : ch 'i' = c := Option.some.inj hc
  exact absurd hle (by decide)

/-! ### What recording does -/

/-- The entries of a turn once a change of it is recorded. -/
def recorded (storedBytes : Nat) (effect : FileEffect) (entries : List EditEntry) :
    List EditEntry :=
  if entries.any fun entry => entry.path = effect.path then
    setAfterHash effect.path effect.afterHash entries
  else entries ++ [newEntry storedBytes effect]

theorem entriesOf_record {effect : FileEffect} (hopen : s.journal.directory ≠ []) (t : Int) :
    (s.record turn effect none).journal.entriesOf t =
      if t = turn then recorded s.journal.storedBytes effect (s.journal.entriesOf turn)
      else s.journal.entriesOf t := by
  have hinsert : ∀ entries : List EditEntry,
      (Assoc.lookup t (Assoc.insert turn entries s.journal.turns)).getD [] =
        if t = turn then entries else s.journal.entriesOf t := fun entries => by
    rw [Assoc.lookup_insert, entriesOf]
    split_ifs <;> rfl
  rw [record, recorded]
  dsimp only
  rw [if_neg hopen]
  by_cases hfound : ((s.journal.entriesOf turn).any fun entry => entry.path = effect.path) = true
  · rw [if_pos hfound, if_pos hfound]
    exact hinsert _
  rw [if_neg hfound, if_neg hfound]
  by_cases hwrites : (newEntry s.journal.storedBytes effect).undoable = true ∧
      (newEntry s.journal.storedBytes effect).existed = true
  · rw [if_pos hwrites]
    refine (hinsert _).trans ?_
    have hwritten : (s.store.write (blobName turn effect.path) (effect.before.getD []) none).2 =
        (newEntry s.journal.storedBytes effect).undoable := hwrites.1.symm
    rw [hwritten]
  · rw [if_neg hwrites]
    exact hinsert _

theorem lookup_set {store : EditStore} {name' content : Bytes} :
    Assoc.lookup name (store.set name' content).files =
      if name = name' then some content else Assoc.lookup name store.files :=
  Assoc.lookup_insert name' name content store.files

theorem lookup_record {effect : FileEffect} :
    Assoc.lookup name (s.record turn effect none).store.files =
      if WritesBlob s turn effect ∧ name = blobName turn effect.path then
        some (effect.before.getD [])
      else Assoc.lookup name s.store.files := by
  rw [record]
  dsimp only
  by_cases hclosed : s.journal.directory = []
  · rw [if_pos hclosed, if_neg fun h => h.1.1 hclosed]
  rw [if_neg hclosed]
  by_cases hfound : ((s.journal.entriesOf turn).any fun entry => entry.path = effect.path) = true
  · rw [if_pos hfound, if_neg fun h => h.1.2.1 (any_path_iff.mp hfound)]
  rw [if_neg hfound]
  by_cases hwrites : (newEntry s.journal.storedBytes effect).undoable = true ∧
      (newEntry s.journal.storedBytes effect).existed = true
  · have hblob : WritesBlob s turn effect :=
      ⟨hclosed, fun h => hfound (any_path_iff.mpr h), hwrites.1, hwrites.2⟩
    rw [if_pos hwrites]
    refine lookup_set.trans ?_
    simp only [hblob, true_and]
  · rw [if_neg hwrites, if_neg fun h => hwrites h.1.2.2]

/-! ### The layers of a file -/

/-- An entry shows a layer: whether the file was there before, what was in it
when that can be undone, and a hash of what the turn left. -/
structure Shows (s : EditState) (path : Bytes) (entry : EditEntry) (layer : Layer Int DiskNode) :
    Prop where
  named : entry.path = path
  existed : entry.existed = true ↔ layer.before ≠ .absent
  before : entry.undoable = true → entry.existed = true → ∃ content mode,
    layer.before = .regular content mode ∧ content.length ≤ kUndoFileBytes ∧
      Assoc.lookup (blobName layer.turn path) s.store.files = some content
  leaves : Leaves entry.afterHash layer.after

/-- Among the turns that are `fresh`, the entries of one file are its layers. -/
structure Layered (fresh : Int → Prop) (path : Bytes) (start : DiskNode) (s : EditState)
    (layers : List (Layer Int DiskNode)) : Prop where
  node : ∃ now, Layers.Stacked start now layers ∧ (s.files path).unmoded = now.unmoded
  shows : ∀ layer ∈ layers, ∃ entries entry later,
    s.journal.entriesOf layer.turn = entries ++ entry :: later ∧ Shows s path entry layer ∧
      ∀ other ∈ entries ++ later, hashHex other.path ≠ hashHex path
  others : ∀ turn, fresh turn → (∀ layer ∈ layers, layer.turn ≠ turn) →
    ∀ entry ∈ s.journal.entriesOf turn, entry.path ≠ path

theorem mem_setAfterHash {hash : Bytes} {entries : List EditEntry} {entry : EditEntry}
    (h : entry ∈ setAfterHash path hash entries) : ∃ old ∈ entries, old.path = entry.path := by
  have hmap : entry.path ∈ (setAfterHash path hash entries).map EditEntry.path :=
    List.mem_map_of_mem h
  rw [setAfterHash_eq_map_paths] at hmap
  exact List.mem_map.mp hmap

/-- The paths a turn lists afterwards. -/
theorem path_of_mem_recorded {storedBytes : Nat} {effect : FileEffect} {entries : List EditEntry}
    {entry : EditEntry} (h : entry ∈ recorded storedBytes effect entries) :
    entry.path = effect.path ∨ ∃ old ∈ entries, old.path = entry.path := by
  rw [recorded] at h
  split_ifs at h
  · exact .inr (mem_setAfterHash h)
  · rcases List.mem_append.mp h with hold | hnew
    · exact .inr ⟨entry, hold, rfl⟩
    · exact .inl (congrArg EditEntry.path (List.mem_singleton.mp hnew))

theorem setAfterHash_append {hash : Bytes} {entries later : List EditEntry}
    (h : ∀ entry ∈ entries, entry.path ≠ path) :
    setAfterHash path hash (entries ++ later) = entries ++ setAfterHash path hash later := by
  induction entries with
  | nil => rfl
  | cons entry entries ih =>
    rw [List.cons_append, setAfterHash, if_neg (h entry List.mem_cons_self),
      ih fun other hmem => h other (List.mem_cons_of_mem entry hmem), List.cons_append]

/-- Another file's change leaves an entry where it is. -/
theorem recorded_of_ne (storedBytes : Nat) {effect : FileEffect} (entries later : List EditEntry)
    {entry : EditEntry} (hne : entry.path ≠ effect.path) :
    ∃ entries' later', recorded storedBytes effect (entries ++ entry :: later) =
        entries' ++ entry :: later' ∧
      ∀ other ∈ entries' ++ later', other.path = effect.path ∨
        ∃ old ∈ entries ++ later, old.path = other.path := by
  rw [recorded]
  split_ifs with hfound
  · clear hfound
    induction entries with
    | nil =>
      refine ⟨[], setAfterHash effect.path effect.afterHash later, ?_, fun other hmem => ?_⟩
      · rw [List.nil_append, setAfterHash, if_neg hne]
        rfl
      · exact .inr (mem_setAfterHash hmem)
    | cons first entries ih =>
      rw [List.cons_append, setAfterHash]
      split_ifs with hfirst
      · refine ⟨_ :: entries, later, rfl, fun other hmem => ?_⟩
        rcases List.mem_cons.mp hmem with rfl | hmem
        · exact .inl hfirst
        · exact .inr ⟨other, List.mem_cons_of_mem first hmem, rfl⟩
      · obtain ⟨entries', later', heq, hpaths⟩ := ih
        refine ⟨first :: entries', later', by rw [heq]; rfl, fun other hmem => ?_⟩
        rcases List.mem_cons.mp hmem with rfl | hmem
        · exact .inr ⟨other, List.mem_cons_self, rfl⟩
        · refine (hpaths other hmem).imp_right ?_
          rintro ⟨old, hold, hpath⟩
          exact ⟨old, List.mem_cons_of_mem first hold, hpath⟩
  · refine ⟨entries, later ++ [newEntry storedBytes effect], by simp, fun other hmem => ?_⟩
    rw [← List.append_assoc] at hmem
    rcases List.mem_append.mp hmem with hold | hnew
    · exact .inr ⟨other, hold, rfl⟩
    · exact .inl (congrArg EditEntry.path (List.mem_singleton.mp hnew))

theorem entriesOf_change {c : EditChange} (hopen : s.journal.directory ≠ []) (t : Int) :
    (s.change c).journal.entriesOf t =
      if t = c.turn then recorded s.journal.storedBytes c.effect (s.journal.entriesOf c.turn)
      else s.journal.entriesOf t :=
  entriesOf_record hopen t

namespace Layered

variable {fresh : Int → Prop} {start : DiskNode} {layers : List (Layer Int DiskNode)}

/-- A layer's turn has an entry of the file. -/
theorem mem_paths (h : Layered fresh path start s layers) {layer : Layer Int DiskNode}
    (hlayer : layer ∈ layers) :
    path ∈ (s.journal.entriesOf layer.turn).map EditEntry.path := by
  obtain ⟨entries, entry, later, heq, hshows, -⟩ := h.shows layer hlayer
  rw [heq]
  exact List.mem_map.mpr ⟨entry, by simp, hshows.named⟩

/-- Another file is changed. -/
theorem change_of_ne (h : Layered fresh path start s layers) (hopen : s.journal.directory ≠ [])
    {c : EditChange} (hok : c.Ok s) (hne : path ≠ c.effect.path) :
    Layered fresh path start (s.change c) layers where
  node := by
    obtain ⟨now, hstacked, hnow⟩ := h.node
    refine ⟨now, hstacked, ?_⟩
    show ((Function.update s.files c.effect.path c.after) path).unmoded = _
    rw [Function.update_of_ne hne]
    exact hnow
  shows layer hlayer := by
    obtain ⟨entries, entry, later, heq, hshows, hothers⟩ := h.shows layer hlayer
    -- no blob of the file is written over
    have hhash : hashHex c.effect.path ≠ hashHex path ∨ layer.turn ≠ c.turn := by
      by_contra hsame
      rw [not_or, not_not, not_not] at hsame
      have hentry : entry ∈ s.journal.entriesOf c.turn := by
        rw [← hsame.2, heq]
        simp
      have hpath := hok.kept entry hentry (by rw [hshows.named, hsame.1])
      exact hne (hshows.named.symm.trans hpath)
    have hlookup : Assoc.lookup (blobName layer.turn path) (s.change c).store.files =
        Assoc.lookup (blobName layer.turn path) s.store.files := by
      refine lookup_record.trans (if_neg fun hwritten => ?_)
      obtain ⟨hturn, hsame⟩ := blobName_eq hwritten.2
      exact hhash.elim (fun hdiff => hdiff hsame.symm) fun hdiff => hdiff hturn
    have hshows' : Shows (s.change c) path entry layer :=
      ⟨hshows.named, hshows.existed, by rw [hlookup]; exact hshows.before, hshows.leaves⟩
    have hentries : (s.change c).journal.entriesOf layer.turn = _ := entriesOf_change hopen _
    by_cases hturn : layer.turn = c.turn
    · rw [if_pos hturn, ← hturn, heq] at hentries
      obtain ⟨entries', later', hrecorded, hpaths⟩ :=
        recorded_of_ne s.journal.storedBytes entries later
          fun hsame => hne (hshows.named.symm.trans hsame)
      refine ⟨entries', entry, later', hentries.trans hrecorded, hshows', fun other hother => ?_⟩
      rcases hpaths other hother with hpath | ⟨old, hold, hpath⟩
      · rw [hpath]
        exact hhash.resolve_right (not_not.mpr hturn)
      · exact hpath ▸ hothers old hold
    · rw [if_neg hturn, heq] at hentries
      exact ⟨entries, entry, later, hentries, hshows', hothers⟩
  others t hfresh hnone entry hentry := by
    have hold := h.others t hfresh hnone
    rw [entriesOf_change hopen] at hentry
    split_ifs at hentry with ht
    · rcases path_of_mem_recorded hentry with hpath | ⟨old, hmem, hpath⟩
      · exact fun heq => hne (heq.symm.trans hpath)
      · exact hpath ▸ hold old (ht ▸ hmem)
    · exact hold entry hentry

/-- The other turns' entries show the same layers. -/
theorem shows_change (h : Layered fresh path start s layers) (hopen : s.journal.directory ≠ [])
    {c : EditChange} {layer : Layer Int DiskNode} (hlayer : layer ∈ layers)
    (hturn : layer.turn ≠ c.turn) : ∃ entries entry later,
      (s.change c).journal.entriesOf layer.turn = entries ++ entry :: later ∧
        Shows (s.change c) path entry layer ∧
        ∀ other ∈ entries ++ later, hashHex other.path ≠ hashHex path := by
  obtain ⟨entries, entry, later, heq, hshows, hothers⟩ := h.shows layer hlayer
  have hlookup : Assoc.lookup (blobName layer.turn path) (s.change c).store.files =
      Assoc.lookup (blobName layer.turn path) s.store.files :=
    lookup_record.trans (if_neg fun hwritten => hturn (blobName_eq hwritten.2).1)
  refine ⟨entries, entry, later, ?_, ⟨hshows.named, hshows.existed, ?_, hshows.leaves⟩, hothers⟩
  · rw [entriesOf_change hopen, if_neg hturn, heq]
  · rw [hlookup]
    exact hshows.before

/-- A later change in the newest turn. -/
theorem change_top {layer : Layer Int DiskNode} {older : List (Layer Int DiskNode)}
    (h : Layered fresh path start s (layer :: older)) (hopen : s.journal.directory ≠ [])
    {c : EditChange} (hok : c.Ok s) (hpath : c.effect.path = path) (hturn : layer.turn = c.turn) :
    Layered fresh path start (s.change c) ({ layer with after := c.after } :: older) where
  node := by
    obtain ⟨now, hstacked, -⟩ := h.node
    refine ⟨c.after, ⟨rfl, hstacked.2⟩, congrArg DiskNode.unmoded ?_⟩
    exact hpath ▸ Function.update_self _ _ _
  shows top htop := by
    rcases List.mem_cons.mp htop with rfl | htop
    · obtain ⟨entries, entry, later, heq, hshows, hothers⟩ := h.shows layer List.mem_cons_self
      have hne : ∀ other ∈ entries, other.path ≠ c.effect.path := fun other hother hsame =>
        hothers other (List.mem_append_left _ hother) (by rw [hsame, hpath])
      have hfound : path ∈ (s.journal.entriesOf c.turn).map EditEntry.path :=
        hturn ▸ h.mem_paths List.mem_cons_self
      have hlookup : Assoc.lookup (blobName layer.turn path) (s.change c).store.files =
          Assoc.lookup (blobName layer.turn path) s.store.files :=
        lookup_record.trans (if_neg fun hwritten => hwritten.1.2.1 (hpath ▸ hfound))
      refine ⟨entries, { entry with afterHash := c.effect.afterHash }, later, ?_,
        ⟨hshows.named, hshows.existed, ?_, hok.leaves⟩, hothers⟩
      · show (s.change c).journal.entriesOf layer.turn = _
        rw [entriesOf_change hopen, if_pos hturn, recorded,
          if_pos (any_path_iff.mpr (hpath ▸ hfound)), ← hturn, heq, setAfterHash_append hne,
          setAfterHash, if_pos (hshows.named.trans hpath.symm)]
      · rw [hlookup]
        exact hshows.before
    · obtain ⟨now, hstacked, -⟩ := h.node
      have hlt := hstacked.2.1 top htop
      exact h.shows_change hopen (List.mem_cons_of_mem layer htop) (hturn ▸ hlt.ne)
  others t hfresh hnone entry hentry := by
    have ht : t ≠ c.turn := fun heq =>
      hnone { layer with after := c.after } List.mem_cons_self (hturn.trans heq.symm)
    rw [entriesOf_change hopen, if_neg ht] at hentry
    refine h.others t hfresh (fun other hother => ?_) entry hentry
    rcases List.mem_cons.mp hother with rfl | hother
    · exact fun heq => ht (heq.symm.trans hturn)
    · exact hnone other (List.mem_cons_of_mem _ hother)

/-- The first change in a turn. -/
theorem change_new {now : DiskNode} (h : Layered fresh path start s layers)
    (hstacked : Layers.Stacked start now layers) (hnow : (s.files path).unmoded = now.unmoded)
    (hopen : s.journal.directory ≠ []) {c : EditChange} (hok : c.Ok s)
    (hpath : c.effect.path = path) (hfresh : fresh c.turn)
    (hturn : ∀ layer ∈ layers, layer.turn < c.turn) :
    Layered fresh path start (s.change c) (⟨c.turn, now, c.after⟩ :: layers) where
  node := by
    refine ⟨c.after, ⟨rfl, hturn, hstacked⟩, congrArg DiskNode.unmoded ?_⟩
    exact hpath ▸ Function.update_self _ _ _
  shows top htop := by
    rcases List.mem_cons.mp htop with rfl | htop
    · have hold := h.others c.turn hfresh fun layer hlayer => (hturn layer hlayer).ne
      have hnew : c.effect.path ∉ (s.journal.entriesOf c.turn).map EditEntry.path := by
        intro hmem
        obtain ⟨entry, hentry, hsame⟩ := List.mem_map.mp hmem
        exact hold entry hentry (hsame.trans hpath)
      refine ⟨s.journal.entriesOf c.turn, newEntry s.journal.storedBytes c.effect, [], ?_,
        ⟨hpath, ?_, fun hundoable hexisted => ?_, hok.leaves⟩, fun other hother => ?_⟩
      · show (s.change c).journal.entriesOf c.turn = _
        rw [entriesOf_change hopen, if_pos rfl, recorded,
          if_neg fun hany => hnew (any_path_iff.mp hany)]
      · show c.effect.existed = true ↔ now ≠ .absent
        rw [hok.existed, hpath]
        exact not_congr ⟨DiskNode.eq_absent_of_unmoded hnow,
          DiskNode.eq_absent_of_unmoded hnow.symm⟩
      · have hwrites : WritesBlob s c.turn c.effect := ⟨hopen, hnew, hundoable, hexisted⟩
        obtain ⟨heligible, -⟩ := of_decide_eq_true hundoable
        have hexisted : c.effect.existed = true := hexisted
        have hsome : c.effect.before.isSome :=
          heligible.1.resolve_left (by rw [hexisted]; exact Bool.noConfusion)
        obtain ⟨content, hcontent⟩ := Option.isSome_iff_exists.mp hsome
        obtain ⟨mode, hnode⟩ := hok.before content hcontent
        obtain ⟨mode', hregular⟩ := DiskNode.eq_regular_of_unmoded hnow (hpath ▸ hnode)
        refine ⟨content, mode', hregular, ?_, ?_⟩
        · simpa [hcontent] using heligible.2
        · refine lookup_record.trans ?_
          rw [if_pos ⟨hwrites, by rw [hpath]⟩, hcontent]
          rfl
      · rw [List.append_nil] at hother
        exact fun hsame => hold other hother ((hok.kept other hother (hpath ▸ hsame)).trans hpath)
    · exact h.shows_change hopen htop (hturn top htop).ne
  others t hfresh hnone entry hentry := by
    have ht : t ≠ c.turn := fun heq => hnone ⟨c.turn, now, c.after⟩ List.mem_cons_self heq.symm
    rw [entriesOf_change hopen, if_neg ht] at hentry
    exact h.others t hfresh (fun other hother => hnone other (List.mem_cons_of_mem _ hother)) entry
      hentry

/-- **Recording is a change of the layers.** -/
theorem change (h : Layered fresh path start s layers) (hopen : s.journal.directory ≠ [])
    {c : EditChange} (hok : c.Ok s) (hfresh : fresh c.turn)
    (hturn : ∀ layer ∈ layers, layer.turn ≤ c.turn) :
    ∃ now, Layered fresh path start (s.change c)
      (if c.effect.path = path then Layers.record c.turn now c.after layers else layers) := by
  obtain ⟨now, hstacked, hnow⟩ := h.node
  refine ⟨now, ?_⟩
  split_ifs with hpath
  · by_cases hexists : ∃ layer ∈ layers, layer.turn = c.turn
    · obtain ⟨layer, hmem, hlayer⟩ := hexists
      obtain ⟨older, rfl⟩ := hstacked.eq_cons_of_mem hturn hmem hlayer
      rw [Layers.record, if_pos hlayer]
      exact h.change_top hopen hok hpath hlayer
    · have hlt : ∀ layer ∈ layers, layer.turn < c.turn := fun layer hlayer =>
        lt_of_le_of_ne (hturn layer hlayer) fun heq => hexists ⟨layer, hlayer, heq⟩
      rw [Layers.record_of_ne fun layer hlayer => (hlt layer hlayer).ne]
      exact h.change_new hstacked hnow hopen hok hpath hfresh hlt
  · exact h.change_of_ne hopen hok (Ne.symm hpath)

end Layered

/-! ### A run of changes -/

/-- What a turn left of a file. -/
def leftBy (changes : List EditChange) (turn : Int) (path : Bytes) : Option DiskNode :=
  ((changes.filter fun c => c.turn = turn ∧ c.effect.path = path).getLast?).map EditChange.after

theorem leftBy_append (done : List EditChange) (c : EditChange) :
    leftBy (done ++ [c]) turn path =
      if c.turn = turn ∧ c.effect.path = path then some c.after else leftBy done turn path := by
  rw [leftBy, List.filter_append]
  split_ifs with hc
  · rw [List.filter_cons_of_pos (by simpa using hc)]
    simp
  · rw [List.filter_cons_of_neg (by simpa using hc)]
    simp [leftBy]

theorem directory_change (s : EditState) (c : EditChange) :
    (s.change c).journal.directory = s.journal.directory := by
  rw [change, record]
  dsimp only
  split_ifs <;> rfl

/-- The layers are of turns that changed the file, with what they left. -/
def Tracks (changes : List EditChange) (path : Bytes) (layers : List (Layer Int DiskNode)) : Prop :=
  ∀ layer ∈ layers, leftBy changes layer.turn path = some layer.after

theorem turn_le_of_tracks {changes : List EditChange} {c : EditChange}
    {layers : List (Layer Int DiskNode)} (h : Tracks changes path layers)
    (horder : (changes ++ [c]).Pairwise fun a b => a.turn ≤ b.turn) :
    ∀ layer ∈ layers, layer.turn ≤ c.turn := by
  intro layer hlayer
  obtain ⟨last, hlast, -⟩ := Option.map_eq_some_iff.mp (h layer hlayer)
  obtain ⟨hmem, hc⟩ := List.mem_filter.mp (List.mem_of_getLast? hlast)
  have hturn : last.turn = layer.turn := (of_decide_eq_true hc).1
  rw [← hturn]
  exact (List.pairwise_append.mp horder).2.2 last hmem c (List.mem_singleton_self c)

/-- **A run of changes** makes layers of what it leaves. -/
theorem layered_changes {fresh : Int → Prop} {start : DiskNode} (changes done : List EditChange)
    {layers : List (Layer Int DiskNode)} (h : Layered fresh path start s layers)
    (htracks : Tracks done path layers) (hopen : s.journal.directory ≠ [])
    (hok : Run.AllOk change (fun s c => c.Ok s) s changes) (hfresh : ∀ c ∈ changes, fresh c.turn)
    (horder : (done ++ changes).Pairwise fun a b => a.turn ≤ b.turn) :
    ∃ layers', Layered fresh path start (changes.foldl change s) layers' ∧
      Tracks (done ++ changes) path layers' := by
  induction changes generalizing s done layers with
  | nil => exact ⟨layers, h, by rwa [List.append_nil]⟩
  | cons c changes ih =>
    rw [List.append_cons] at horder ⊢
    have hturn := turn_le_of_tracks htracks (List.pairwise_append.mp horder).1
    obtain ⟨now, hchanged⟩ := h.change hopen hok.1 (hfresh c List.mem_cons_self) hturn
    refine ih (done ++ [c]) hchanged ?_ (directory_change s c ▸ hopen) hok.2
      (fun c' hc' => hfresh c' (List.mem_cons_of_mem c hc')) horder
    intro layer hlayer
    rw [leftBy_append]
    by_cases hpath : c.effect.path = path
    · obtain ⟨before, rest, hrecord, hrest⟩ := Layers.exists_record c.turn now c.after layers
      rw [if_pos hpath, hrecord] at hlayer hchanged
      obtain ⟨_, hstacked, -⟩ := hchanged.node
      rcases List.mem_cons.mp hlayer with rfl | hlayer
      · rw [if_pos ⟨rfl, hpath⟩]
      · have hlt : layer.turn < c.turn := hstacked.2.1 layer hlayer
        rw [if_neg fun hc => hlt.ne hc.1.symm]
        exact htracks layer (hrest layer hlayer)
    · rw [if_neg hpath] at hlayer
      rw [if_neg fun hc => hpath hc.2]
      exact htracks layer hlayer

theorem layered_nil {fresh : Int → Prop} (h : ∀ t, fresh t → s.journal.entriesOf t = []) :
    Layered fresh path (s.files path) s [] where
  node := ⟨s.files path, rfl, rfl⟩
  shows _ hlayer := absurd hlayer List.not_mem_nil
  others t hfresh _ _ hentry := absurd (h t hfresh ▸ hentry) List.not_mem_nil

end EditState

end UAgent
