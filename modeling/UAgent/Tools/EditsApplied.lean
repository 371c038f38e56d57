/-
UAgent/Tools/EditsApplied.lean

What a list of edits means, and that `edit_file` does just that or nothing.

`EditApplied` says what one edit makes of a text, by the pieces its old text
cuts it into (`Bytes.Cuts`), and `EditRefused` why it is not applied; every
edit is one or the other.  The separate passes of the code, counting,
estimating the size and replacing, agree because each is a function of the
pieces.

Main result: `toolEditFile_atomic`.
-/
import UAgent.Tools.FileEdits

namespace UAgent

open Bytes

/-! ### What an edit means -/

/-- The text an edit takes out of `data`. -/
def effectiveOld (data : Bytes) (edit : FileEdit) : Bytes :=
  (resolveEditText data edit (mostlyCrLf data)).oldText

/-- `old` names nothing in `data`. -/
def Absent (old data : Bytes) : Prop := old = [] ∨ ¬old <:+: data

/-- `data` holds what the edit would put in. -/
def There (edit : FileEdit) (data : Bytes) : Prop :=
  edit.newText ≠ [] ∧
    (edit.newText <:+: data ∨ fileLineEnding edit.newText (mostlyCrLf data) true <:+: data)

/-- What one edit makes of `data`: the new text between the pieces, or `data`
itself when the edit has been made before. -/
inductive EditApplied (limit : Nat) (edit : FileEdit) (data : Bytes) : Bytes → Prop
  | rewritten {pieces : List Bytes} (asked : edit.oldText ≠ [])
      (cuts : Cuts (effectiveOld data edit) data pieces)
      (number : pieces.length = 2 ∨ edit.replaceAll = true ∧ 2 < pieces.length)
      (size : (joinWith (effectiveNew data edit) pieces).length ≤ limit) :
      EditApplied limit edit data (joinWith (effectiveNew data edit) pieces)
  | already (asked : edit.oldText ≠ []) (absent : Absent (effectiveOld data edit) data)
      (there : There edit data) : EditApplied limit edit data data

/-- Why an edit is not applied to `data`. -/
inductive EditRefused (limit : Nat) (edit : FileEdit) (data : Bytes) : Prop
  | empty (asked : edit.oldText = [])
  | notFound (absent : Absent (effectiveOld data edit) data) (there : ¬There edit data)
  | ambiguous {pieces : List Bytes} (cuts : Cuts (effectiveOld data edit) data pieces)
      (number : 2 < pieces.length) (one : edit.replaceAll = false)
  | tooLarge {pieces : List Bytes} (cuts : Cuts (effectiveOld data edit) data pieces)
      (number : 1 < pieces.length)
      (size : limit < (joinWith (effectiveNew data edit) pieces).length)

/-- What edits make of a text, one after another. -/
inductive EditsApplied (limit : Nat) : List FileEdit → Bytes → Bytes → Prop
  | nil {data : Bytes} : EditsApplied limit [] data data
  | cons {edit : FileEdit} {edits : List FileEdit} {data mid data' : Bytes}
      (first : EditApplied limit edit data mid) (rest : EditsApplied limit edits mid data') :
      EditsApplied limit (edit :: edits) data data'

/-- Some edit of the list is refused where the edits before it have led. -/
def SomeRefused (limit : Nat) (edits : List FileEdit) (data : Bytes) : Prop :=
  ∃ before edit after mid, edits = before ++ edit :: after ∧
    EditsApplied limit before data mid ∧ EditRefused limit edit mid

/-! ### The passes over a text -/

/-- What is counted are the occurrences. -/
theorem countOccurrences_of_cuts {needle hay : Bytes} {pieces : List Bytes} (hne : needle ≠ [])
    (h : Cuts needle hay pieces) :
    countOccurrences hay needle = { count := pieces.length - 1, first := find needle hay } := by
  rw [countOccurrences, if_neg hne, h.scan_count hne]

theorem countOccurrences_count_eq_zero {needle hay : Bytes} :
    (countOccurrences hay needle).count = 0 ↔ Absent needle hay := by
  by_cases hne : needle = []
  · exact iff_of_true (by rw [countOccurrences, if_pos hne]) (.inl hne)
  · obtain ⟨pieces, hcuts⟩ := exists_cuts hne hay
    have hpos := List.length_pos_of_ne_nil hcuts.ne_nil
    rw [countOccurrences_of_cuts hne hcuts, Absent, or_iff_right hne, ← hcuts.length_eq_one_iff]
    show pieces.length - 1 = 0 ↔ _
    omega

/-- What is replaced are the occurrences. -/
theorem replaceAllOccurrences_of_cuts {data old : Bytes} {pieces : List Bytes} (hne : old ≠ [])
    (h : Cuts old data pieces) (new : Bytes) :
    replaceAllOccurrences data old new = joinWith new pieces :=
  h.scan_replace hne new

/-- Replacing the only occurrence is replacing all. -/
theorem replaceAt_of_cuts {data old a b : Bytes} (h : Cuts old data [a, b]) (new : Bytes) :
    replaceAt data ((find old data).getD 0) old new = joinWith new [a, b] := by
  have hfind : find old data = some a.length := by
    rw [h.find_eq, if_neg (by simp)]
    rfl
  have hdata : data = a ++ (old ++ b) := by
    rw [← h.joinWith_eq]
    simp [joinWith]
  have hdrop : (a ++ (old ++ b)).drop (a.length + old.length) = b := by
    rw [← List.append_assoc, List.drop_left' (by simp)]
  rw [hfind, Option.getD_some, replaceAt, hdata, hdrop, List.take_left]
  simp [joinWith]

section Size

variable {limit current oldSize newSize count size : Nat}

/-- Past every `size_t` nothing is computed. -/
theorem grownSize_eq (hlimit : limit < 2 ^ 64) (hcurrent : current ≤ limit) (hle : oldSize ≤ newSize)
    (hsize : size + count * oldSize = current + count * newSize) :
    (if newSize - oldSize ≠ 0 ∧ (2 ^ 64 - 1 - current) / (newSize - oldSize) < count then none
      else if (current + (newSize - oldSize) * count % 2 ^ 64) % 2 ^ 64 ≤ limit then
        some ((current + (newSize - oldSize) * count % 2 ^ 64) % 2 ^ 64) else none) =
      if size ≤ limit then some size else none := by
  have hgrown : count * newSize = count * oldSize + (newSize - oldSize) * count := by
    rw [Nat.mul_comm _ count, ← Nat.mul_add, Nat.add_sub_cancel' hle]
  by_cases hover : newSize - oldSize ≠ 0 ∧ (2 ^ 64 - 1 - current) / (newSize - oldSize) < count
  · have hmul := (Nat.div_lt_iff_lt_mul (Nat.pos_of_ne_zero hover.1)).mp hover.2
    rw [Nat.mul_comm] at hmul
    rw [if_pos hover, if_neg (by omega)]
  · have hfits : (newSize - oldSize) * count ≤ 2 ^ 64 - 1 - current := by
      rcases Nat.eq_zero_or_pos (newSize - oldSize) with h | h
      · rw [h, Nat.zero_mul]
        exact Nat.zero_le _
      · rw [Nat.mul_comm]
        exact (Nat.le_div_iff_mul_le h).mp (Nat.le_of_not_lt fun hlt => hover ⟨h.ne', hlt⟩)
    have hnext : (current + (newSize - oldSize) * count % 2 ^ 64) % 2 ^ 64 = size := by
      rw [Nat.mod_eq_of_lt (show (newSize - oldSize) * count < 2 ^ 64 by omega),
        Nat.mod_eq_of_lt (by omega)]
      omega
    rw [if_neg hover, hnext]

/-- What is taken off was there. -/
theorem shrunkSize_eq (hlimit : limit < 2 ^ 64) (hcurrent : current ≤ limit) (hle : newSize ≤ oldSize)
    (hsize : size + count * oldSize = current + count * newSize) :
    (current + (2 ^ 64 - (oldSize - newSize) * count % 2 ^ 64)) % 2 ^ 64 = size := by
  have hshrunk : count * oldSize = count * newSize + (oldSize - newSize) * count := by
    rw [Nat.mul_comm _ count, ← Nat.mul_add, Nat.add_sub_cancel' hle]
  rw [Nat.mod_eq_of_lt (show (oldSize - newSize) * count < 2 ^ 64 by omega),
    show current + (2 ^ 64 - (oldSize - newSize) * count) = size + 2 ^ 64 by omega,
    Nat.add_mod_right, Nat.mod_eq_of_lt (by omega)]

/-- **The size computed is the size there is**: nothing wraps, and what is
refused would exceed the limit. -/
theorem editedSize_eq (hlimit : limit < 2 ^ 64) (hcurrent : current ≤ limit)
    (hsize : size + count * oldSize = current + count * newSize) :
    editedSize limit current oldSize newSize count = if size ≤ limit then some size else none := by
  simp only [editedSize]
  rcases Nat.lt_or_ge newSize oldSize with hlt | hle
  · rw [if_neg (Nat.not_le_of_lt hlt), shrunkSize_eq hlimit hcurrent hlt.le hsize]
  · rw [if_pos hle]
    exact grownSize_eq hlimit hcurrent hle hsize

end Size

/-- The size of a text after its occurrences of `old` are replaced. -/
theorem editedSize_of_cuts {limit : Nat} {data old : Bytes} {pieces : List Bytes}
    (hlimit : limit < 2 ^ 64) (hdata : data.length ≤ limit) (h : Cuts old data pieces)
    (new : Bytes) :
    editedSize limit data.length old.length new.length (pieces.length - 1) =
      if (joinWith new pieces).length ≤ limit then some (joinWith new pieces).length else none :=
  editedSize_eq hlimit hdata (h.length_joinWith_add new)

/-! ### One edit -/

theorem found_orElse {data : Bytes} {resolved : ResolvedEdit}
    (h : resolved.found = countOccurrences data resolved.oldText) (oldText : Bytes)
    (normalized : Bool) :
    (resolved.orElse data oldText normalized).found =
      countOccurrences data (resolved.orElse data oldText normalized).oldText := by
  rw [ResolvedEdit.orElse]
  split_ifs
  · rfl
  · exact h

/-- What was counted is the text that was settled on. -/
theorem found_resolveEditText (data : Bytes) (edit : FileEdit) :
    (resolveEditText data edit (mostlyCrLf data)).found =
      countOccurrences data (effectiveOld data edit) :=
  found_orElse (found_orElse rfl _ _) _ _

theorem isSome_find_iff {pat s : Bytes} : (find pat s).isSome ↔ pat <:+: s :=
  Option.isSome_iff_exists.trans exists_find_iff

theorem alreadyThere_iff {data : Bytes} {edit : FileEdit} :
    alreadyThere data edit = true ↔ There edit data := by
  simp [alreadyThere, There, isSome_find_iff]

section OneEdit

variable {target : EditTarget} {original data : Bytes} {index : Nat} {edit : FileEdit} {run : EditRun}

/-- An edit whose text is not there is settled by the text it would put in. -/
theorem applyEdit_of_absent (asked : edit.oldText ≠ [])
    (absent : Absent (effectiveOld data edit) data) :
    (There edit data → applyEdit target original index edit data run =
      .ok (data, { run with alreadyApplied := run.alreadyApplied + 1 })) ∧
    (¬There edit data → ∃ refusal,
      applyEdit target original index edit data run = .error refusal ∧ ¬refusal.Ok) := by
  have hcount : (resolveEditText data edit (mostlyCrLf data)).found.count = 0 := by
    rw [found_resolveEditText]
    exact countOccurrences_count_eq_zero.mpr absent
  simp only [applyEdit, if_neg asked, if_pos hcount]
  refine ⟨fun there => ?_, fun there => ?_⟩
  · rw [if_pos (alreadyThere_iff.mpr there)]
  · rw [if_neg (mt alreadyThere_iff.mp there)]
    exact ⟨_, rfl, Option.some_ne_none _⟩

/-- What is counted, and where, when the text is there. -/
theorem found_of_cuts {pieces : List Bytes} (cuts : Cuts (effectiveOld data edit) data pieces) :
    (resolveEditText data edit (mostlyCrLf data)).found =
      { count := pieces.length - 1, first := find (effectiveOld data edit) data } := by
  rw [found_resolveEditText, countOccurrences_of_cuts cuts.pattern_ne_nil cuts]

omit target original data index run in
theorem places_of_not_ambiguous {places : Nat} (h : 1 < places)
    (hmany : ¬(edit.replaceAll = false ∧ 2 < places)) :
    places = 2 ∨ edit.replaceAll = true ∧ 2 < places := by
  rcases Nat.lt_or_ge 2 places with hlt | hle
  · cases hall : edit.replaceAll with
    | true => exact .inr ⟨rfl, hlt⟩
    | false => exact absurd ⟨hall, hlt⟩ hmany
  · exact .inl (by omega)

/-- An edit that names more than one place, and not all of them. -/
theorem applyEdit_ambiguous {pieces : List Bytes} (asked : edit.oldText ≠ [])
    (cuts : Cuts (effectiveOld data edit) data pieces) (number : 2 < pieces.length)
    (one : edit.replaceAll = false) :
    ∃ refusal, applyEdit target original index edit data run = .error refusal ∧ ¬refusal.Ok := by
  simp only [applyEdit, if_neg asked, found_of_cuts cuts]
  rw [if_neg (show pieces.length - 1 ≠ 0 by omega), if_pos ⟨one, by omega⟩]
  exact ⟨_, rfl, Option.some_ne_none _⟩

/-- An edit that names its places: the text is replaced there if the result
fits. -/
theorem applyEdit_of_cuts {pieces : List Bytes} (hlimit : target.editFileBytes < 2 ^ 64)
    (hdata : data.length ≤ target.editFileBytes) (asked : edit.oldText ≠ [])
    (cuts : Cuts (effectiveOld data edit) data pieces)
    (number : pieces.length = 2 ∨ edit.replaceAll = true ∧ 2 < pieces.length) :
    ((joinWith (effectiveNew data edit) pieces).length ≤ target.editFileBytes → ∃ run',
      applyEdit target original index edit data run =
        .ok (joinWith (effectiveNew data edit) pieces, run') ∧
      run.replacements ≤ run'.replacements ∧
      (run'.replacements = run.replacements → joinWith (effectiveNew data edit) pieces = data)) ∧
    (target.editFileBytes < (joinWith (effectiveNew data edit) pieces).length → ∃ refusal,
      applyEdit target original index edit data run = .error refusal ∧ ¬refusal.Ok) := by
  have hone : ¬(edit.replaceAll = false ∧ 1 < pieces.length - 1) := by
    rintro ⟨hone, hmany⟩
    rcases number with h | ⟨hall, -⟩
    · omega
    · exact absurd (hone.symm.trans hall) (by decide)
  -- all occurrences are replaced, be it the only one
  have happlied : (if edit.replaceAll then pieces.length - 1 else 1) = pieces.length - 1 := by
    rcases number with h | ⟨hall, -⟩
    · rw [h, ite_self]
    · rw [if_pos hall]
  have hreplaced (new : Bytes) : (if edit.replaceAll then
      replaceAllOccurrences data (effectiveOld data edit) new
      else replaceAt data ((find (effectiveOld data edit) data).getD 0) (effectiveOld data edit) new) =
      joinWith new pieces := by
    split_ifs with hall
    · exact replaceAllOccurrences_of_cuts cuts.pattern_ne_nil cuts new
    · obtain ⟨a, b, rfl⟩ := List.length_eq_two.mp (number.resolve_right fun h => hall h.1)
      exact replaceAt_of_cuts cuts new
  have hold : (resolveEditText data edit (mostlyCrLf data)).oldText = effectiveOld data edit := rfl
  simp only [applyEdit, if_neg asked, found_of_cuts cuts, hold, happlied, hreplaced]
  rw [if_neg (show pieces.length - 1 ≠ 0 by omega), if_neg hone,
    editedSize_of_cuts hlimit hdata cuts]
  split_ifs with hsame hfits
  · rw [← hsame, cuts.joinWith_eq]
    exact ⟨fun _ => ⟨_, rfl, le_rfl, fun _ => rfl⟩, fun hlt => absurd hdata (Nat.not_le.mpr hlt)⟩
  · refine ⟨fun _ => ⟨_, rfl, Nat.le_add_right _ _, fun h => ?_⟩,
      fun hlt => absurd hfits (Nat.not_le.mpr hlt)⟩
    have hnone : run.replacements + (pieces.length - 1) = run.replacements := h
    omega
  · exact ⟨fun hle => absurd hle hfits, fun _ => ⟨_, rfl, Option.some_ne_none _⟩⟩

/-- **What an edit means is what it does.** -/
theorem applyEdit_applied (hlimit : target.editFileBytes < 2 ^ 64)
    (hdata : data.length ≤ target.editFileBytes) {data' : Bytes}
    (h : EditApplied target.editFileBytes edit data data') :
    ∃ run', applyEdit target original index edit data run = .ok (data', run') ∧
      run.replacements ≤ run'.replacements ∧
      (run'.replacements = run.replacements → data' = data) := by
  cases h with
  | rewritten asked cuts number size => exact (applyEdit_of_cuts hlimit hdata asked cuts number).1 size
  | already asked absent there =>
    exact ⟨_, (applyEdit_of_absent asked absent).1 there, le_rfl, fun _ => rfl⟩

/-- What is refused is reported. -/
theorem applyEdit_refused (hlimit : target.editFileBytes < 2 ^ 64)
    (hdata : data.length ≤ target.editFileBytes)
    (h : EditRefused target.editFileBytes edit data) :
    ∃ refusal, applyEdit target original index edit data run = .error refusal ∧ ¬refusal.Ok := by
  by_cases asked : edit.oldText = []
  · rw [applyEdit]
    exact ⟨_, if_pos asked, Option.some_ne_none _⟩
  · cases h with
    | empty h => exact absurd h asked
    | notFound absent there => exact (applyEdit_of_absent asked absent).2 there
    | ambiguous cuts number one => exact applyEdit_ambiguous asked cuts number one
    | @tooLarge pieces cuts number size =>
      by_cases hmany : edit.replaceAll = false ∧ 2 < pieces.length
      · exact applyEdit_ambiguous asked cuts hmany.2 hmany.1
      · exact (applyEdit_of_cuts hlimit hdata asked cuts (places_of_not_ambiguous number hmany)).2 size

end OneEdit

/-- Every edit is applied or refused. -/
theorem editApplied_or_refused (limit : Nat) (edit : FileEdit) (data : Bytes) :
    (∃ data', EditApplied limit edit data data') ∨ EditRefused limit edit data := by
  by_cases asked : edit.oldText = []
  · exact .inr (.empty asked)
  by_cases absent : Absent (effectiveOld data edit) data
  · by_cases there : There edit data
    · exact .inl ⟨data, .already asked absent there⟩
    · exact .inr (.notFound absent there)
  · obtain ⟨hne, hin⟩ := not_or.mp absent
    obtain ⟨pieces, cuts⟩ := exists_cuts hne data
    have hlength := mt cuts.length_eq_one_iff.mp hin
    have hpos := List.length_pos_of_ne_nil cuts.ne_nil
    by_cases hmany : edit.replaceAll = false ∧ 2 < pieces.length
    · exact .inr (.ambiguous cuts hmany.2 hmany.1)
    · rcases Nat.lt_or_ge limit (joinWith (effectiveNew data edit) pieces).length with size | size
      · exact .inr (.tooLarge cuts (by omega) size)
      · exact .inl ⟨_, .rewritten asked cuts (places_of_not_ambiguous (by omega) hmany) size⟩

/-! ### A list of edits -/

theorem EditApplied.length_le {limit : Nat} {edit : FileEdit} {data data' : Bytes}
    (h : EditApplied limit edit data data') (hdata : data.length ≤ limit) :
    data'.length ≤ limit := by
  cases h with
  | rewritten _ _ _ size => exact size
  | already => exact hdata

section Run

variable {target : EditTarget} {original : Bytes}

/-- The loop makes of the text what the edits mean, one after another. -/
theorem applyEditsFrom_applied (hlimit : target.editFileBytes < 2 ^ 64) {edits : List FileEdit}
    {data data' : Bytes} (h : EditsApplied target.editFileBytes edits data data')
    (hdata : data.length ≤ target.editFileBytes) (index : Nat) (run : EditRun) :
    ∃ run', applyEditsFrom target original index edits data run = .ok (data', run') ∧
      run.replacements ≤ run'.replacements ∧
      (run'.replacements = run.replacements → data' = data) := by
  induction h generalizing index run with
  | nil => exact ⟨run, rfl, le_rfl, fun _ => rfl⟩
  | @cons edit edits data mid data' first rest ih =>
    obtain ⟨run₁, hstep, hle₁, hsame₁⟩ :=
      @applyEdit_applied target original data index edit run hlimit hdata mid first
    obtain ⟨run₂, hrest, hle₂, hsame₂⟩ := ih (first.length_le hdata) (index + 1) run₁
    refine ⟨run₂, ?_, hle₁.trans hle₂, fun h => ?_⟩
    · rw [applyEditsFrom, hstep]
      exact hrest
    · rw [hsame₂ (by omega), hsame₁ (by omega)]

/-- The loop ends with the refusal of the first edit that is refused. -/
theorem applyEditsFrom_refused (hlimit : target.editFileBytes < 2 ^ 64) {before : List FileEdit}
    {data mid : Bytes} (h : EditsApplied target.editFileBytes before data mid)
    (hdata : data.length ≤ target.editFileBytes) {edit : FileEdit}
    (hrefused : EditRefused target.editFileBytes edit mid) (after : List FileEdit) (index : Nat)
    (run : EditRun) :
    ∃ refusal, applyEditsFrom target original index (before ++ edit :: after) data run =
      .error refusal ∧ ¬refusal.Ok := by
  induction h generalizing index run with
  | nil =>
    obtain ⟨refusal, hstep, hnot⟩ := @applyEdit_refused target original _ index edit run
      hlimit hdata hrefused
    refine ⟨refusal, ?_, hnot⟩
    rw [List.nil_append, applyEditsFrom, hstep]
  | cons first rest ih =>
    obtain ⟨run₁, hstep, -, -⟩ := @applyEdit_applied target original _ index _ run hlimit hdata _ first
    obtain ⟨refusal, hrest, hnot⟩ := ih (first.length_le hdata) hrefused (index + 1) run₁
    refine ⟨refusal, ?_, hnot⟩
    rw [List.cons_append, applyEditsFrom, hstep]
    exact hrest

end Run

/-- All edits are applied, or one is refused. -/
theorem editsApplied_or_refused (limit : Nat) (edits : List FileEdit) (data : Bytes) :
    (∃ data', EditsApplied limit edits data data') ∨ SomeRefused limit edits data := by
  induction edits generalizing data with
  | nil => exact .inl ⟨data, .nil⟩
  | cons edit edits ih =>
    rcases editApplied_or_refused limit edit data with ⟨mid, first⟩ | hrefused
    · rcases ih mid with ⟨data', rest⟩ | ⟨before, refused, after, there, rfl, hbefore, hrefused⟩
      · exact .inl ⟨data', .cons first rest⟩
      · exact .inr ⟨edit :: before, refused, after, there, rfl, .cons first hbefore, hrefused⟩
    · exact .inr ⟨[], edit, edits, data, rfl, .nil, hrefused⟩

/-! ### The tool -/

/-- The system lets the file be read and written. -/
structure Permits (target : EditTarget) (site : EditSite) : Prop where
  readable : site.unreadable = none
  opened : site.unopened = none
  small : ∀ bytes ∈ site.size, bytes ≤ target.editFileBytes
  fits : site.content.length ≤ target.editFileBytes
  writable : site.unwritable = none
  written : site.fault = none

/-- What the preview shows of a text that becomes another: its changed lines. -/
def shownChange (site : EditSite) (content : Bytes) : Bytes :=
  let diff := wholeFileDiffDisplay site.displayPath site.content content true
  if diff = [] then lit "no effective changes" else diff

section Tool

variable {target : EditTarget} {site : EditSite} {edits : List FileEdit}

theorem applyEdits_applied (hlimit : target.editFileBytes < 2 ^ 64) {data data' : Bytes}
    (h : EditsApplied target.editFileBytes edits data data') (hedits : edits ≠ [])
    (hdata : data.length ≤ target.editFileBytes) :
    ∃ run, applyEdits target data edits = .ok (data', run) ∧
      (run.replacements = 0 → data' = data) := by
  obtain ⟨run, hrun, -, hsame⟩ := @applyEditsFrom_applied target data hlimit edits data data' h hdata 0 {}
  exact ⟨run, by rw [applyEdits, if_neg hedits, hrun], hsame⟩

theorem applyEdits_refused (hlimit : target.editFileBytes < 2 ^ 64) {data : Bytes}
    (h : SomeRefused target.editFileBytes edits data) (hdata : data.length ≤ target.editFileBytes) :
    ∃ refusal, applyEdits target data edits = .error refusal ∧ ¬refusal.Ok := by
  obtain ⟨before, edit, after, mid, rfl, hbefore, hrefused⟩ := h
  rw [applyEdits, if_neg (by simp)]
  exact applyEditsFrom_refused hlimit hbefore hdata hrefused after 0 {}

theorem readForEdit_of_permits (h : Permits target site) :
    readForEdit target site = .ok site.content := by
  have hsmall : site.size.filter (target.editFileBytes < ·) = none :=
    Option.filter_eq_none_iff.mpr fun bytes hbytes => by
      simpa using h.small bytes hbytes
  simp only [readForEdit, h.readable, h.opened, hsmall]
  rw [if_neg (Nat.not_lt.mpr h.fits)]

theorem fits_of_readForEdit {original : Bytes} (h : readForEdit target site = .ok original) :
    original = site.content ∧ original.length ≤ target.editFileBytes := by
  rw [readForEdit] at h
  rcases hread : site.unreadable with - | refusal <;> rw [hread] at h
  · rcases hopen : site.unopened with - | code <;> rw [hopen] at h
    · rcases hsize : site.size.filter (target.editFileBytes < ·) with - | bytes <;> rw [hsize] at h
      · split_ifs at h with hlong
        obtain rfl := Except.ok.inj h
        exact ⟨rfl, Nat.le_of_not_lt hlong⟩
      · exact absurd h (by simp)
    · exact absurd h (by simp)
  · exact absurd h (by simp)

/-- A file that is previewed is previewed whole. -/
theorem diffableContents_eq (hfits : site.content.length ≤ target.editFileBytes)
    (h : diffableContents target.editFileBytes site ≠ none) :
    diffableContents target.editFileBytes site = some site.content := by
  rcases hsize : site.size with - | bytes <;> simp only [diffableContents, hsize] at h ⊢
  · exact absurd rfl h
  · split_ifs at h ⊢ with hshown
    · rw [utf8Prefix, if_pos hfits]
    · exact absurd rfl h

/-- A refused edit leaves the file alone, and the preview is the refusal. -/
theorem toolEditFile_refused (hlimit : target.editFileBytes < 2 ^ 64)
    (h : SomeRefused target.editFileBytes edits site.content) :
    (toolEditFile target site edits).1 = .regular site.content site.mode ∧
      (Permits target site → ¬(toolEditFile target site edits).2.Ok ∧
        (diffableContents target.editFileBytes site ≠ none →
          editPreview target site edits = (toolEditFile target site edits).2.output)) := by
  rcases hread : readForEdit target site with failure | original
  · refine ⟨by simp only [toolEditFile, hread], fun hpermits => ?_⟩
    rw [readForEdit_of_permits hpermits] at hread
    exact absurd hread (by simp)
  · obtain ⟨rfl, hfits⟩ := fits_of_readForEdit hread
    obtain ⟨refusal, hedits, hnot⟩ := applyEdits_refused hlimit h hfits
    have htool : toolEditFile target site edits = (.regular site.content site.mode, refusal) := by
      simp only [toolEditFile, hread, hedits]
    rw [htool]
    refine ⟨rfl, fun _ => ⟨hnot, fun hshown => ?_⟩⟩
    rw [editPreview, diffableContents_eq hfits hshown]
    simp only [hedits]

/-- A failure leaves the file alone, unless all that failed was to sync its
directory. -/
theorem toolEditFile_failed (hfault : ∀ fault ∈ site.fault, fault.replaced = false)
    (h : ¬(toolEditFile target site edits).2.Ok) :
    (toolEditFile target site edits).1 = .regular site.content site.mode := by
  have hwrite (path content : Bytes) :
      (toolWriteFile site path content).2 = none ∨
        (toolWriteFile site path content).1 = .regular site.content site.mode := by
    rw [toolWriteFile]
    rcases site.unwritable with - | refusal
    · rcases hf : site.fault with - | fault
      · exact .inl rfl
      · have hkept := hfault fault (Option.mem_def.mpr hf)
        exact .inr (by simp [atomicWriteFile, hkept])
    · exact .inr rfl
  rcases hread : readForEdit target site with failure | original
  · simp only [toolEditFile, hread]
  rcases hedits : applyEdits target original edits with refusal | ⟨data, run⟩
  · simp only [toolEditFile, hread, hedits]
  · simp only [toolEditFile, hread, hedits] at h ⊢
    split_ifs at h ⊢ with hnone
    · rfl
    · rcases hw : toolWriteFile site target.path data with ⟨node, - | failure⟩
      · rw [hw] at h
        exact absurd rfl h
      · have hkept := hwrite target.path data
        rw [hw] at hkept
        exact hkept.resolve_left (by simp)

/-- Edits that are applied are what the file holds afterwards, and what the
preview shows. -/
theorem toolEditFile_applied (hlimit : target.editFileBytes < 2 ^ 64) {content' : Bytes}
    (h : EditsApplied target.editFileBytes edits site.content content') (hedits : edits ≠ [])
    (hpermits : Permits target site) :
    (toolEditFile target site edits).1 = .regular content' site.mode ∧
      (toolEditFile target site edits).2.Ok ∧
      (diffableContents target.editFileBytes site ≠ none →
        editPreview target site edits = shownChange site content') := by
  obtain ⟨run, hrun, hsame⟩ := applyEdits_applied hlimit h hedits hpermits.fits
  have hwrite : toolWriteFile site target.path content' = (.regular content' site.mode, none) := by
    simp [toolWriteFile, hpermits.writable, hpermits.written, atomicWriteFile]
  have hpreview (hshown : diffableContents target.editFileBytes site ≠ none) :
      editPreview target site edits = shownChange site content' := by
    rw [editPreview, diffableContents_eq hpermits.fits hshown]
    simp only [hrun]
    rfl
  by_cases hnone : run.replacements = 0
  · obtain rfl := hsame hnone
    refine ⟨?_, ?_, hpreview⟩ <;>
      simp only [toolEditFile, readForEdit_of_permits hpermits, hrun, if_pos hnone, FileResult.Ok]
  · refine ⟨?_, ?_, hpreview⟩ <;>
      simp only [toolEditFile, readForEdit_of_permits hpermits, hrun, if_neg hnone, hwrite,
        FileResult.Ok]

end Tool

/-- The size computed is that of the text after replacing, and replacing the
only occurrence is replacing all. -/
theorem editedSize_replace {limit : Nat} (hlimit : limit < 2 ^ 64) {data old : Bytes}
    (hold : old ≠ []) (hdata : data.length ≤ limit) (new : Bytes) :
    editedSize limit data.length old.length new.length (countOccurrences data old).count =
      (if (replaceAllOccurrences data old new).length ≤ limit then
        some (replaceAllOccurrences data old new).length else none) ∧
    ((countOccurrences data old).count = 1 →
      replaceAt data ((countOccurrences data old).first.getD 0) old new =
        replaceAllOccurrences data old new) := by
  obtain ⟨pieces, cuts⟩ := exists_cuts hold data
  rw [countOccurrences_of_cuts hold cuts, replaceAllOccurrences_of_cuts hold cuts]
  refine ⟨editedSize_of_cuts hlimit hdata cuts new, fun hone => ?_⟩
  have hone : pieces.length - 1 = 1 := hone
  obtain ⟨a, b, rfl⟩ := List.length_eq_two.mp (show pieces.length = 2 by omega)
  exact replaceAt_of_cuts cuts new

/-- **A list of edits is all applied or leaves the file as it was**, the preview
of a file that is shown shows just that, and the size computed for each edit is
that of its result. -/
theorem toolEditFile_atomic {target : EditTarget} (hlimit : target.editFileBytes < 2 ^ 64)
    (site : EditSite) (edits : List FileEdit) :
    ((∃ content', EditsApplied target.editFileBytes edits site.content content') ∨
      SomeRefused target.editFileBytes edits site.content) ∧
    (SomeRefused target.editFileBytes edits site.content →
      (toolEditFile target site edits).1 = .regular site.content site.mode ∧
        (Permits target site → ¬(toolEditFile target site edits).2.Ok ∧
          (diffableContents target.editFileBytes site ≠ none →
            editPreview target site edits = (toolEditFile target site edits).2.output))) ∧
    ((∀ fault ∈ site.fault, fault.replaced = false) → ¬(toolEditFile target site edits).2.Ok →
      (toolEditFile target site edits).1 = .regular site.content site.mode) ∧
    (∀ content', EditsApplied target.editFileBytes edits site.content content' → edits ≠ [] →
      Permits target site →
        (toolEditFile target site edits).1 = .regular content' site.mode ∧
        (toolEditFile target site edits).2.Ok ∧
        (diffableContents target.editFileBytes site ≠ none →
          editPreview target site edits = shownChange site content')) ∧
    ∀ data old new : Bytes, old ≠ [] → data.length ≤ target.editFileBytes →
      editedSize target.editFileBytes data.length old.length new.length
          (countOccurrences data old).count =
        (if (replaceAllOccurrences data old new).length ≤ target.editFileBytes then
          some (replaceAllOccurrences data old new).length else none) ∧
      ((countOccurrences data old).count = 1 →
        replaceAt data ((countOccurrences data old).first.getD 0) old new =
          replaceAllOccurrences data old new) :=
  ⟨editsApplied_or_refused _ edits site.content, toolEditFile_refused hlimit, toolEditFile_failed,
    fun _ h hedits hpermits => toolEditFile_applied hlimit h hedits hpermits,
    fun _ _ new hold hdata => editedSize_replace hlimit hold hdata new⟩

/-- A file of one line, its name in the folder. -/
def oneLineSite : EditSite where
  content := lit "a\n"
  mode := 0o644
  size := some 2
  permissions := some 0o644
  displayPath := lit "a.txt"

def oneLineTarget : EditTarget where
  editFileBytes := 1024
  path := lit "a.txt"
  canonicalPath := lit "/a.txt"

/-- An edit, and another of what it has put in. -/
theorem toolEditFile_atomic_two_edits :
    (toolEditFile oneLineTarget oneLineSite
      [{ oldText := lit "a", newText := lit "bb" },
        { oldText := lit "b", newText := lit "c", replaceAll := true }]).1 =
      .regular (lit "cc\n") 0o644 :=
  have first : EditApplied 1024 { oldText := lit "a", newText := lit "bb" } (lit "a\n") (lit "bb\n") :=
    @EditApplied.rewritten 1024 _ _ [[], lit "\n"] (by decide) (.cut (a := []) (by decide) (.last (by decide)))
      (by decide) (by decide)
  have second : EditApplied 1024 { oldText := lit "b", newText := lit "c", replaceAll := true }
      (lit "bb\n") (lit "cc\n") :=
    @EditApplied.rewritten 1024 _ _ [[], [], lit "\n"] (by decide)
      (.cut (a := []) (by decide) (.cut (a := []) (by decide) (.last (by decide)))) (by decide)
      (by decide)
  ((toolEditFile_atomic (by decide) oneLineSite _).2.2.2.1 _ (.cons first (.cons second .nil))
    (by decide) ⟨rfl, rfl, by decide, by decide, rfl, rfl⟩).1

/-- Taking the last newline off changes the file, and the preview says that
nothing changes, as it does of an edit that changes nothing. -/
theorem editPreview_hides_newline :
    (toolEditFile oneLineTarget oneLineSite [{ oldText := lit "a\n", newText := lit "a" }]).1 =
        .regular (lit "a") 0o644 ∧
      editPreview oneLineTarget oneLineSite [{ oldText := lit "a\n", newText := lit "a" }] =
        lit "no effective changes" ∧
      (toolEditFile oneLineTarget oneLineSite [{ oldText := lit "a", newText := lit "a" }]).1 =
        .regular (lit "a\n") 0o644 ∧
      editPreview oneLineTarget oneLineSite [{ oldText := lit "a", newText := lit "a" }] =
        lit "no effective changes" := by
  decide

end UAgent
