/-
UAgent/Media/Base64File.lean

A file as Base64 text and back (`Base64File` and `Base64Decode`,
src/media/attachments.cc).  The encoder takes what each read brings, writes the
whole triples and holds the rest; the decoder is told the most it may produce.

Main result: `base64_file_texts`.  What is written of a file is read back, however
its bytes were read, and the decoder takes exactly the texts that fit.
-/
import UAgent.Base.Base64
import UAgent.Core.Json

namespace UAgent

open Bytes Base64

/-! ### Encoding -/

/-- What opening an attachment finds, and what its reads bring: none brings
nothing but at the end, or where reading fails. -/
structure AttachmentFile where
  path : Bytes
  opened : Bool := true
  regular : Bool := true
  /-- `st_size` -/
  size : Fin (2 ^ 63)
  reads : List Bytes
  failed : Bool := false

/-- `CheckedAdd` -/
def checkedAdd (a b : Nat) : Option Nat := if a + b ≤ sizeMax then some (a + b) else none

/-- `CheckedMul` -/
def checkedMul (a b : Nat) : Option Nat := if a * b ≤ sizeMax then some (a * b) else none

/-- The loop over the whole triples of a block. -/
def encodeWhole : Bytes → Bytes
  | x :: y :: z :: rest => triple x y z ++ encodeWhole rest
  | _ => []

/-- What is written of the bytes held at the end. -/
def encodeHeld : Bytes → Bytes
  | [] => []
  | first :: rest =>
    let second := rest.headD 0
    [char (first >>> 2), char ((first &&& 3) <<< 4 ||| second >>> 4),
      if rest = [] then pad else char ((second &&& 15) <<< 2), pad]

/-- The loop over the reads: the text, and the bytes held; nothing when they
come to more than `maxBytes`. -/
def encodeReads (maxBytes read : Nat) (out held : Bytes) : List Bytes → Option (Bytes × Bytes)
  | [] => some (out, held)
  | chunk :: chunks =>
    if chunk = [] then some (out, held)
    else if maxBytes < read + chunk.length then none
    else
      let data := held ++ chunk
      let whole := data.length - data.length % 3
      encodeReads maxBytes (read + chunk.length) (out ++ encodeWhole (data.take whole))
        (data.drop whole) chunks

/-- `Base64File`: the text behind `start`, or an error. -/
def base64File (file : AttachmentFile) (maxBytes : Nat) (start : Bytes) : Except Bytes Bytes :=
  if file.opened = false then .error (lit "cannot open " ++ file.path)
  else if file.regular = false then
    .error (lit "attachment is not a regular file: " ++ file.path)
  else if maxBytes < file.size then
    .error (lit "attachment exceeds remaining byte limit: " ++ file.path)
  else if sizeMax < file.size then
    .error (lit "attachment is too large to encode: " ++ file.path)
  else
    match (checkedAdd file.size 2).bind fun padded =>
        (checkedMul (padded / 3) 4).bind fun encoded => checkedAdd start.length encoded with
    | none => .error (lit "attachment size overflow")
    | some _ =>
      match encodeReads maxBytes 0 start [] file.reads with
      | none =>
        .error (lit "attachment grew beyond the byte limit while reading: " ++ file.path)
      | some (out, held) =>
        if file.failed then .error (lit "failed to read " ++ file.path)
        else .ok (out ++ encodeHeld held)

/-! ### Decoding -/

/-- The loop over the groups: whether all are taken, and what was produced. -/
def decodeLoop (maxBytes : Nat) (out : Bytes) : Bytes → Bool × Bytes
  | a :: b :: c :: d :: rest =>
    match groupBytes rest.isEmpty a b c d with
    | none => (false, out)
    | some bytes =>
      if maxBytes < (out ++ bytes).length then (false, out ++ bytes)
      else decodeLoop maxBytes (out ++ bytes) rest
  | _ => (true, out)

/-- The size a text is expected to decode to. -/
def decodedSize (input : Bytes) : Nat :=
  let decoded := input.length / 4 * 3
  let decoded := if input.getLast? = some pad then decoded - 1 else decoded
  if 2 ≤ input.length ∧ input[input.length - 2]? = some pad then decoded - 1 else decoded

/-- `Base64Decode`: whether the text is taken, and the output it leaves. -/
def base64Decode (input output : Bytes) (maxBytes : Nat) : Bool × Bytes :=
  if input.length % 4 ≠ 0 then (false, output)
  else if checkedMul (input.length / 4) 3 = none then (false, output)
  else if maxBytes < decodedSize input then (false, output)
  else decodeLoop maxBytes [] input

/-! ### The encoder -/

theorem encodeWhole_eq {s : Bytes} (h : s.length % 3 = 0) : encodeWhole s = encode s := by
  induction s using encode.induct with
  | case1 x y z rest ih =>
    have hrest : rest.length % 3 = 0 := by
      simp only [List.length_cons] at h
      omega
    rw [encodeWhole, encode, ih hrest]
  | case2 x y => exact absurd h (by simp)
  | case3 x => exact absurd h (by simp)
  | case4 => rfl

theorem encodeHeld_eq {held : Bytes} (h : held.length < 3) : encodeHeld held = encode held := by
  match held, h with
  | [], _ => rfl
  | [x], _ => simp [encodeHeld, encode]
  | [x, y], _ => simp [encodeHeld, encode]

/-- The reads are written as their bytes are, however they were cut. -/
theorem encodeReads_eq {maxBytes read : Nat} {out held : Bytes} {chunks : List Bytes}
    (hheld : held.length < 3) (hsome : [] ∉ chunks)
    (hroom : read + chunks.flatten.length ≤ maxBytes) :
    ∃ out' held', encodeReads maxBytes read out held chunks = some (out', held') ∧
      out' ++ encodeHeld held' = out ++ encode (held ++ chunks.flatten) := by
  induction chunks generalizing read out held with
  | nil => exact ⟨out, held, rfl, by rw [encodeHeld_eq hheld, List.flatten_nil, List.append_nil]⟩
  | cons chunk chunks ih =>
    obtain ⟨hchunk, hsome⟩ := List.ne_and_not_mem_of_not_mem_cons hsome
    rw [List.flatten_cons, List.length_append] at hroom
    have hwhole : ((held ++ chunk).take
        ((held ++ chunk).length - (held ++ chunk).length % 3)).length % 3 = 0 := by
      rw [List.length_take]
      omega
    obtain ⟨out', held', hrun, htext⟩ := @ih (read + chunk.length)
      (out ++ encodeWhole ((held ++ chunk).take
        ((held ++ chunk).length - (held ++ chunk).length % 3)))
      ((held ++ chunk).drop ((held ++ chunk).length - (held ++ chunk).length % 3))
      (by rw [List.length_drop]; omega) hsome (by omega)
    refine ⟨out', held', ?_, ?_⟩
    · rw [encodeReads, if_neg (Ne.symm hchunk), if_neg (by omega)]
      exact hrun
    · rw [htext, encodeWhole_eq hwhole, List.append_assoc, ← encode_append _ _ hwhole,
        ← List.append_assoc, List.take_append_drop, List.flatten_cons, List.append_assoc]

/-! ### The decoder -/

section Decoder

variable {maxBytes : Nat} {out input rest : Bytes} {a b c d : UInt8}

theorem decodedSize_cons (hgroups : rest.length % 4 = 0) (hrest : rest ≠ []) :
    decodedSize (a :: b :: c :: d :: rest) = 3 + decodedSize rest := by
  have hlength : 4 ≤ rest.length := by
    have hpos := List.length_pos_of_ne_nil hrest
    omega
  have hlast : (a :: b :: c :: d :: rest).getLast? = rest.getLast? := by
    obtain ⟨first, others, rfl⟩ := List.exists_cons_of_ne_nil hrest
    simp only [List.getLast?_cons_cons]
  have hbefore : (a :: b :: c :: d :: rest)[(a :: b :: c :: d :: rest).length - 2]? =
      rest[rest.length - 2]? := by
    have hindex : (a :: b :: c :: d :: rest).length - 2 = rest.length - 2 + 4 := by
      simp only [List.length_cons]
      omega
    rw [hindex]
    rfl
  have hmore : 2 ≤ (a :: b :: c :: d :: rest).length := by
    simp only [List.length_cons]
    omega
  have hlong : 2 ≤ rest.length := by omega
  simp only [decodedSize, hlast, hbefore, hmore, hlong, true_and]
  have hdiv : (a :: b :: c :: d :: rest).length / 4 * 3 = 3 + rest.length / 4 * 3 := by
    simp only [List.length_cons]
    omega
  rw [hdiv]
  split_ifs <;> omega

theorem decodedSize_group :
    decodedSize [a, b, c, d] + (if c = pad then 1 else 0) + (if d = pad then 1 else 0) = 3 := by
  simp only [decodedSize, List.length_cons, List.length_nil, List.getLast?_cons_cons,
    List.getLast?_singleton, Option.some.injEq]
  by_cases hc : c = pad <;> by_cases hd : d = pad <;> simp [hc, hd]

/-- What the loop makes of a text it has room for: it takes the text or not,
and produces no more than there is room. -/
structure LoopTakes (maxBytes : Nat) (out input : Bytes) : Prop where
  taken : (decodeLoop maxBytes out input).1 = true ↔ ∃ pads, IsText input pads
  room : (decodeLoop maxBytes out input).2.length ≤ maxBytes
  size : (decodeLoop maxBytes out input).1 = true →
    (decodeLoop maxBytes out input).2.length = out.length + decodedSize input

/-- The last group. -/
theorem decodeLoop_last (hroom : out.length + decodedSize [a, b, c, d] ≤ maxBytes) :
    LoopTakes maxBytes out [a, b, c, d] := by
  have htext : (∃ pads, IsText [a, b, c, d] pads) ↔ (groupBytes true a b c d).isSome := by
    simp only [isText_group, exists_and_left, exists_eq, and_true]
  rcases hgroup : groupBytes true a b c d with - | bytes
  · have hrun : decodeLoop maxBytes out [a, b, c, d] = (false, out) := by
      simp only [decodeLoop, List.isEmpty_nil, hgroup]
    rw [hgroup] at htext
    exact ⟨by rw [hrun, htext]; simp, by rw [hrun]; show out.length ≤ _; omega,
      fun h => by rw [hrun] at h; cases h⟩
  · have hlength := length_of_groupBytes hgroup
    have hsize := @decodedSize_group a b c d
    have hle : ¬maxBytes < (out ++ bytes).length := by
      rw [List.length_append]
      omega
    have hrun : decodeLoop maxBytes out [a, b, c, d] = (true, out ++ bytes) := by
      simp only [decodeLoop, List.isEmpty_nil, hgroup, if_neg hle]
    rw [hgroup] at htext
    refine ⟨by rw [hrun, htext]; simp, by rw [hrun]; exact Nat.not_lt.mp hle, fun _ => ?_⟩
    rw [hrun, List.length_append]
    omega

/-- A group before the last: it is taken when it has no padding, and the rest
goes on behind its three bytes. -/
theorem decodeLoop_group (hgroups : rest.length % 4 = 0) (hrest : rest ≠ [])
    (hroom : out.length + decodedSize (a :: b :: c :: d :: rest) ≤ maxBytes)
    (ih : ∀ out', out'.length + decodedSize rest ≤ maxBytes → LoopTakes maxBytes out' rest) :
    LoopTakes maxBytes out (a :: b :: c :: d :: rest) := by
  have hsize := @decodedSize_cons rest a b c d hgroups hrest
  have hempty : rest.isEmpty = false := by
    simpa using hrest
  have htext : (∃ pads, IsText (a :: b :: c :: d :: rest) pads) ↔
      (groupBytes false a b c d).isSome ∧ ∃ pads, IsText rest pads := by
    simp only [isText_cons hgroups hrest, exists_and_left]
    refine and_congr_left fun _ => ?_
    by_cases hpad : c = pad ∨ d = pad
    · rw [groupBytes_pad hpad]
      refine ⟨fun h => ?_, fun h => Bool.noConfusion h⟩
      rcases hpad with rfl | rfl
      · exact absurd h.2.2.1 pad_not_mem
      · exact absurd h.2.2.2 pad_not_mem
    · obtain ⟨hc, hd⟩ := not_or.mp hpad
      exact (groupBytes_alphabet hc hd).symm
  rcases hgroup : groupBytes false a b c d with - | bytes
  · have hrun : decodeLoop maxBytes out (a :: b :: c :: d :: rest) = (false, out) := by
      simp only [decodeLoop, hempty, hgroup]
    rw [hgroup] at htext
    exact ⟨by rw [hrun, htext]; simp, by rw [hrun]; show out.length ≤ _; omega,
      fun h => by rw [hrun] at h; cases h⟩
  · have hthree : bytes.length = 3 := by
      have hlength := length_of_groupBytes hgroup
      have hpad : ¬(c = pad ∨ d = pad) := fun hpad => by
        rw [groupBytes_pad hpad] at hgroup
        cases hgroup
      obtain ⟨hc, hd⟩ := not_or.mp hpad
      rwa [if_neg hc, if_neg hd] at hlength
    have hlong : (out ++ bytes).length = out.length + 3 := by
      rw [List.length_append, hthree]
    have hrun : decodeLoop maxBytes out (a :: b :: c :: d :: rest) =
        decodeLoop maxBytes (out ++ bytes) rest := by
      rw [decodeLoop, hempty, hgroup]
      exact if_neg (by omega)
    obtain ⟨htaken, hfits, hall⟩ := ih (out ++ bytes) (by omega)
    rw [hgroup] at htext
    refine ⟨by rw [hrun, htaken, htext]; simp, by rw [hrun]; exact hfits, fun h => ?_⟩
    rw [hrun] at h ⊢
    rw [hall h]
    omega

theorem decodeLoop_takes : ∀ {input out : Bytes}, input.length % 4 = 0 →
    out.length + decodedSize input ≤ maxBytes → LoopTakes maxBytes out input
  | [], out, _, hroom => by
    have hrun : decodeLoop maxBytes out [] = (true, out) := rfl
    refine ⟨by rw [hrun]; simp [isText_nil], ?_, fun _ => rfl⟩
    rw [hrun]
    show out.length ≤ _
    omega
  | [_], _, hgroups, _ | [_, _], _, hgroups, _ | [_, _, _], _, hgroups, _ => by simp at hgroups
  | a :: b :: c :: d :: rest, out, hgroups, hroom => by
    have hgroups' : rest.length % 4 = 0 := by
      simp only [List.length_cons] at hgroups
      omega
    by_cases hrest : rest = []
    · subst hrest
      exact decodeLoop_last hroom
    · exact decodeLoop_group hgroups' hrest hroom fun _ h => decodeLoop_takes hgroups' h

/-- What was encoded is read back. -/
theorem decodeLoop_encode (content : Bytes) (hroom : out.length + content.length ≤ maxBytes) :
    decodeLoop maxBytes out (encode content) = (true, out ++ content) := by
  induction content using encode.induct generalizing out with
  | case1 x y z rest ih =>
    have hroom' : out.length + 3 + rest.length ≤ maxBytes := by
      simp only [List.length_cons] at hroom
      omega
    rw [encode, triple, List.cons_append, List.cons_append, List.cons_append, List.cons_append,
      List.nil_append, decodeLoop, groupBytes_triple]
    have hnext := @ih (out ++ [x, y, z]) (by simpa using hroom')
    simp only [hnext, List.append_assoc, List.cons_append, List.nil_append]
    refine if_neg ?_
    simp only [List.length_append, List.length_cons, List.length_nil]
    omega
  | case2 x y =>
    rw [encode, decodeLoop, List.isEmpty_nil, groupBytes_two]
    exact if_neg (by simpa using hroom)
  | case3 x =>
    rw [encode, decodeLoop, List.isEmpty_nil, groupBytes_one]
    exact if_neg (by simpa using hroom)
  | case4 => exact congrArg (Prod.mk true) (List.append_nil out).symm

/-- The size is the one the padding leaves. -/
theorem decodedSize_of_isText : ∀ {input : Bytes} {pads : Nat}, IsText input pads →
    decodedSize input + pads = 3 * (input.length / 4)
  | [], pads, h => by
    rw [isText_nil.mp h]
    rfl
  | [_], _, h | [_, _], _, h | [_, _, _], _, h => by simpa using h.groups
  | a :: b :: c :: d :: rest, pads, h => by
    have hgroups : rest.length % 4 = 0 := by
      have hall := h.groups
      simp only [List.length_cons] at hall
      omega
    by_cases hrest : rest = []
    · subst hrest
      have hsize := @decodedSize_group a b c d
      have hpads := (isText_group.mp h).2
      simp only [List.length_cons, List.length_nil]
      omega
    · have hlater := decodedSize_of_isText ((isText_cons hgroups hrest).mp h).2
      have hsize := @decodedSize_cons rest a b c d hgroups hrest
      simp only [List.length_cons]
      omega

theorem decodedSize_encode (content : Bytes) : decodedSize (encode content) = content.length := by
  have hgroups : (encode content).length % 4 = 0 := by
    rw [length_encode]
    omega
  have hrun := @decodeLoop_encode (content.length + decodedSize (encode content)) [] content
    (by rw [List.length_nil]; omega)
  have hsize := (@decodeLoop_takes (content.length + decodedSize (encode content)) _ [] hgroups
    (by rw [List.length_nil]; omega)).size
  rw [hrun, List.nil_append, List.length_nil, Nat.zero_add] at hsize
  exact (hsize rfl).symm

end Decoder

/-! ### Files and texts -/

/-- A file that can be read, whose reads bring `content`; none is longer than
a file can be. -/
structure Brings (file : AttachmentFile) (content : Bytes) : Prop where
  opened : file.opened = true
  regular : file.regular = true
  whole : file.failed = false
  some : [] ∉ file.reads
  reads : file.reads.flatten = content
  fits : content.length < 2 ^ 63

/-- The text of a file is the one of its bytes. -/
theorem base64File_eq {file : AttachmentFile} {content : Bytes} (h : Brings file content)
    {maxBytes : Nat} (hsize : file.size ≤ maxBytes) (hroom : content.length ≤ maxBytes) :
    base64File file maxBytes [] = .ok (encode content) := by
  have hlt : (file.size : Nat) < 2 ^ 63 := file.size.isLt
  have hsum : checkedAdd file.size.val 2 = some (file.size.val + 2) :=
    if_pos (by unfold sizeMax; omega)
  have hproduct : checkedMul ((file.size.val + 2) / 3) 4 = some ((file.size.val + 2) / 3 * 4) :=
    if_pos (by unfold sizeMax; omega)
  have htotal : checkedAdd ([] : Bytes).length ((file.size.val + 2) / 3 * 4) =
      some (([] : Bytes).length + (file.size.val + 2) / 3 * 4) :=
    if_pos (by rw [List.length_nil]; unfold sizeMax; omega)
  obtain ⟨out, held, hrun, htext⟩ := @encodeReads_eq maxBytes 0 [] [] file.reads (by simp) h.some
    (by rw [h.reads]; omega)
  rw [h.reads, List.nil_append, List.nil_append] at htext
  rw [base64File, if_neg (by simp [h.opened]), if_neg (by simp [h.regular]), if_neg (by omega),
    if_neg (by unfold sizeMax; omega), hsum, Option.bind_some, hproduct, Option.bind_some, htotal]
  simp [hrun, h.whole, htext]

/-- **A file read back, and the texts that are taken.**  The text of a file
within the limits decodes to its content, in whatever reads its bytes came.  A
text is taken when it is in groups of four characters of the alphabet, but for
one or two of padding at its end, and what it decodes to fits; no more than
that is ever produced. -/
theorem base64_file_texts :
    (∀ (file : AttachmentFile) (content output : Bytes) (maxBytes maxDecoded : Nat),
      Brings file content → file.size ≤ maxBytes → content.length ≤ maxBytes →
        content.length ≤ maxDecoded →
          ∃ text, base64File file maxBytes [] = .ok text ∧
            base64Decode text output maxDecoded = (true, content)) ∧
      ∀ (input output : Bytes) (maxBytes : Nat), input.length ≤ sizeMax →
        ((base64Decode input output maxBytes).1 = true ↔
            ∃ pads, IsText input pads ∧ 3 * (input.length / 4) - pads ≤ maxBytes) ∧
          ((base64Decode input output maxBytes).2 = output ∨
              (base64Decode input output maxBytes).2.length ≤ maxBytes) ∧
            ((base64Decode input output maxBytes).1 = true →
              (base64Decode input output maxBytes).2.length = decodedSize input) := by
  constructor
  · intro file content output maxBytes maxDecoded h hsize hroom hdecoded
    refine ⟨encode content, base64File_eq h hsize hroom, ?_⟩
    have hlength := length_encode content
    have hfits := h.fits
    have hproduct : checkedMul ((encode content).length / 4) 3 ≠ none := by
      rw [checkedMul, if_pos (by unfold sizeMax; omega)]
      exact Option.some_ne_none _
    have hrun := @decodeLoop_encode maxDecoded [] content (by simpa using hdecoded)
    rw [List.nil_append] at hrun
    rw [base64Decode, if_neg (by omega), if_neg hproduct, decodedSize_encode,
      if_neg (Nat.not_lt.mpr hdecoded), hrun]
  · intro input output maxBytes hinput
    have hproduct : checkedMul (input.length / 4) 3 ≠ none := by
      rw [checkedMul, if_pos (by omega)]
      exact Option.some_ne_none _
    by_cases hgroups : input.length % 4 = 0
    · by_cases hsize : maxBytes < decodedSize input
      · have hrun : base64Decode input output maxBytes = (false, output) := by
          rw [base64Decode, if_neg (not_not.mpr hgroups), if_neg hproduct, if_pos hsize]
        rw [hrun]
        refine ⟨⟨fun h => Bool.noConfusion h, ?_⟩, .inl rfl, fun h => Bool.noConfusion h⟩
        rintro ⟨pads, htext, hle⟩
        have hdecoded := decodedSize_of_isText htext
        omega
      · have hrun : base64Decode input output maxBytes = decodeLoop maxBytes [] input := by
          rw [base64Decode, if_neg (not_not.mpr hgroups), if_neg hproduct, if_neg hsize]
        obtain ⟨htaken, hroom, hall⟩ := @decodeLoop_takes maxBytes input [] hgroups
          (by rw [List.length_nil]; omega)
        rw [hrun]
        refine ⟨htaken.trans ⟨?_, ?_⟩, .inr hroom, fun h => by simpa using hall h⟩
        · rintro ⟨pads, htext⟩
          have hdecoded := decodedSize_of_isText htext
          exact ⟨pads, htext, by omega⟩
        · rintro ⟨pads, htext, -⟩
          exact ⟨pads, htext⟩
    · have hrun : base64Decode input output maxBytes = (false, output) := by
        rw [base64Decode, if_pos hgroups]
      rw [hrun]
      refine ⟨⟨fun h => Bool.noConfusion h, ?_⟩, .inl rfl, fun h => Bool.noConfusion h⟩
      rintro ⟨pads, htext, -⟩
      exact absurd htext.groups hgroups

/-- Five bytes that come in three reads. -/
def helloFile : AttachmentFile where
  path := lit "hello.txt"
  size := 5
  reads := [lit "he", lit "l", lit "lo"]

theorem helloFile_brings : Brings helloFile (lit "hello") where
  opened := rfl
  regular := rfl
  whole := rfl
  some := by decide
  reads := by decide
  fits := by decide

/-- The text has one byte of padding and is taken; without it, it is not. -/
theorem base64_file_texts_hello :
    base64File helloFile 16 [] = .ok (lit "aGVsbG8=") ∧
      base64Decode (lit "aGVsbG8=") [] 16 = (true, lit "hello") ∧
      (base64Decode (lit "aGVsbG8") [] 16).1 = false := by
  have htext : base64File helloFile 16 [] = .ok (lit "aGVsbG8=") := by decide
  obtain ⟨text, hfile, hback⟩ := base64_file_texts.1 helloFile (lit "hello") [] 16 16
    helloFile_brings (by decide) (by decide) (by decide)
  obtain rfl := Except.ok.inj (htext.symm.trans hfile)
  refine ⟨htext, hback, Bool.eq_false_of_not_eq_true fun htaken => ?_⟩
  obtain ⟨pads, htext, -⟩ := ((base64_file_texts.2 (lit "aGVsbG8") [] 16 (by decide)).1).mp htaken
  exact absurd htext.groups (by decide)

end UAgent
