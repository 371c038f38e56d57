/-
UAgent/Agent/AttachedText.lean

The text of a message with files (`AttachmentContent`,
src/media/attachments.cc): the person's words and, behind a marker, a line for
each file.  Two readers give the words back: `StripAttachedTrailer`
(src/agent/transcript_tree.cc) from the last marker, reading the lines behind
it, and `UserMessageText` (src/agent/conversation.cc) up to the first.

Main result: `attached_agree_iff`.  The first reader always gives the words
back, the second if and only if they hold no marker and do not begin as the
harness's own attachments do.
-/
import UAgent.Agent.Node
import UAgent.Agent.AttachmentKinds
import UAgent.Base.Lines
import Mathlib.Data.List.Chain

namespace UAgent

open Bytes

/-! ### The writer -/

/-- `Attachment`. -/
structure Attachment where
  path : Bytes
  name : Bytes := []
  mime : Bytes := []
  bytes : Nat := 0
  image : Bool := false
  sourceCallId : Bytes := []
  assetId : Bytes := []
deriving DecidableEq

/-- Separates a message's own words from the list of files it names. -/
def kAttachedList : Bytes := lit "\n\nAttached:"

/-- The line of a file, as `AttachmentContent` writes it. -/
def referenceLine (attachment : Attachment) : Bytes :=
  lit "- path " ++ (Json.quote attachment.path ++
    if attachment.sourceCallId = [] then []
    else lit " (from tool call " ++ (Json.quote attachment.sourceCallId ++ lit ")"))

/-- The lines of some files, each behind a newline. -/
def referenceLines (attachments : List Attachment) : Bytes :=
  attachments.flatMap fun attachment => 0x0a :: referenceLine attachment

/-- The part of a message's content that stands for a file. -/
def attachmentPart (attachment : Attachment) : Json :=
  .ofFields [(lit "type", .str (lit "attachment")), (lit "path", .str attachment.path),
    (lit "name", .str attachment.name), (lit "mime", .str attachment.mime),
    (lit "bytes", .uint (UInt64.ofNat attachment.bytes)), (lit "id", .str attachment.assetId)]

/-- The sizes of the files added up; an error for one that is not a regular
file, or for a sum that is too large. -/
def attachmentBytes (fileSize : Bytes → Option Nat) (bytes : Nat) :
    List Attachment → Except Bytes Nat
  | [] => .ok bytes
  | attachment :: attachments =>
    match fileSize attachment.path with
    | none => .error (lit "cannot read regular attachment " ++ attachment.path)
    | some current =>
      if current > 2 ^ 64 - 1 - bytes then .error (lit "attachment size overflow")
      else attachmentBytes fileSize (bytes + current) attachments

/-- `AttachmentContent`, given the sizes of the regular files. -/
def attachmentContent (fileSize : Bytes → Option Nat) (limitMb : Nat) (prompt : Bytes)
    (attachments : List Attachment) : Except Bytes Json :=
  match attachmentBytes fileSize 0 attachments with
  | .error error => .error error
  | .ok bytes =>
    if bytes > limitMb * 1048576 then
      .error (lit "attachments total " ++ Json.decimal (bytes / 1048576) ++ lit " MB; limit is " ++
        Json.decimal limitMb ++ lit " MB")
    else
      .ok (.arr (.ofFields [(lit "type", .str (lit "text")),
          (lit "text", .str (prompt ++ kAttachedList ++ referenceLines attachments))] ::
        attachments.map attachmentPart))

/-! ### The readers -/

/-- The loop of `ScanQuotedSegment`: what stands behind the closing quote. -/
def scanInside : Bytes → Option Bytes
  | [] => none
  | [c] => if c = ch '"' then some [] else none
  | c :: d :: s =>
    if c = ch '\\' then scanInside s
    else if c = ch '"' then some (d :: s)
    else scanInside (d :: s)

/-- `ScanQuotedSegment`. -/
def scanQuotedSegment : Bytes → Option Bytes
  | [] => none
  | c :: s => if c = ch '"' then scanInside s else none

/-- The text behind a beginning it has. -/
def behindPrefix (start s : Bytes) : Option Bytes :=
  if start <+: s then some (s.drop start.length) else none

/-- `IsAttachmentReference`. -/
def isAttachmentReference (line : Bytes) : Bool :=
  match (behindPrefix (lit "- path ") line).bind scanQuotedSegment with
  | none => false
  | some rest =>
    rest = [] || ((behindPrefix (lit " (from tool call ") rest).bind scanQuotedSegment) =
      some (lit ")")

/-- The loop of `StripAttachedTrailer` over the lines behind the marker:
whether they are a list of files.  A tail of blank lines is formatting. -/
def listsFiles (referenced : Bool) : List Bytes → Bool
  | [] => referenced
  | line :: lines =>
    if blank line then (line :: lines).all blank && referenced
    else isAttachmentReference line && listsFiles true lines

/-- `StripAttachedTrailer`. -/
def stripAttachedTrailer (text : Bytes) : Bytes :=
  let trailer := kAttachedList ++ [0x0a]
  match rfind trailer text with
  | none => text
  | some marker =>
    if listsFiles false (fileLines (text.drop (marker + trailer.length))) then text.take marker
    else text

/-- The person's own words in a message: they lead the first text part. -/
def ownWords (message : Json) : Bytes :=
  match message.get? (lit "content") with
  | some (.str text) => text
  | _ =>
    let text := ((jsonArray message (lit "content")).bind List.head?).elim []
      fun part => jsonValueStr part (lit "text") []
    (find kAttachedList text).elim text text.take

namespace Conversation

/-- The loop of `UserMessageText`, `seen` user messages being passed. -/
def userMessageTextFrom (turn seen : Int) : List ConversationRow → Bytes
  | [] => []
  | row :: rows =>
    if !isUserMessage row.message row.kind then userMessageTextFrom turn seen rows
    else if seen + 1 ≠ turn then userMessageTextFrom turn (seen + 1) rows
    else ownWords row.message

/-- `UserMessageText`. -/
def userMessageText (c : Conversation) (turn : Int) : Bytes := userMessageTextFrom turn 0 c.rows

end Conversation

/-! ### Quoted texts -/

/-- A text the scan of a quoted segment passes over. -/
def PassedOver (t : Bytes) : Prop := ∀ rest, scanInside (t ++ rest) = scanInside rest

theorem PassedOver.append {t u : Bytes} (ht : PassedOver t) (hu : PassedOver u) :
    PassedOver (t ++ u) := fun rest => by rw [List.append_assoc, ht, hu]

theorem passedOver_byte {c : UInt8} (hescape : c ≠ ch '\\') (hquote : c ≠ ch '"') :
    PassedOver [c] := by
  intro rest
  cases rest with
  | nil =>
    show scanInside [c] = none
    rw [scanInside, if_neg hquote]
  | cons d rest => rw [List.singleton_append, scanInside, if_neg hescape, if_neg hquote]

theorem passedOver_pair (c : UInt8) : PassedOver [ch '\\', c] := fun rest => by
  show scanInside (ch '\\' :: c :: rest) = _
  rw [scanInside, if_pos rfl]

theorem passedOver_hexDigit (n : UInt8) : PassedOver [Json.hexDigit (n &&& 0x0f)] := by
  have hdigit : ∀ n : UInt8, Json.hexDigit (n &&& 0x0f) ≠ ch '\\' ∧
      Json.hexDigit (n &&& 0x0f) ≠ ch '"' :=
    forall_byte (P := fun n => Json.hexDigit (n &&& 0x0f) ≠ ch '\\' ∧
      Json.hexDigit (n &&& 0x0f) ≠ ch '"') (by decide)
  exact passedOver_byte (hdigit n).1 (hdigit n).2

theorem passedOver_escapeChar (c : UInt8) : PassedOver (Json.escapeChar c) := by
  have hshift : ∀ c : UInt8, c >>> 4 = (c >>> 4) &&& 0x0f :=
    forall_byte (P := fun c => c >>> 4 = (c >>> 4) &&& 0x0f) (by decide)
  have hcode : PassedOver (lit "\\u00" ++
      [Json.hexDigit (c >>> 4), Json.hexDigit (c &&& 0x0f)]) := by
    rw [hshift c]
    exact (((passedOver_pair (ch 'u')).append (passedOver_byte (c := ch '0') (by decide)
      (by decide))).append (passedOver_byte (c := ch '0') (by decide) (by decide))).append
        ((passedOver_hexDigit _).append (passedOver_hexDigit c))
  rw [Json.escapeChar]
  split_ifs with _ _ _ _ _ hquote hescape
  all_goals first
    | exact passedOver_pair _
    | exact hcode
    | exact passedOver_byte hescape hquote

/-- A text in quotes is scanned whole. -/
theorem scanQuotedSegment_quote (s rest : Bytes) :
    scanQuotedSegment (Json.quote s ++ rest) = some rest := by
  have hraw : ∀ c : UInt8, 0x80 ≤ c → PassedOver [c] := by
    intro c hc
    refine passedOver_byte ?_ ?_ <;> rintro rfl <;> exact absurd hc (by decide)
  have hreplacement : PassedOver Json.replacement :=
    ((hraw 0xef (by decide)).append (hraw 0xbf (by decide))).append (hraw 0xbd (by decide))
  have hinside : PassedOver (Json.escape s) :=
    Json.escapeFrom_induction (fun _ => rfl) (fun _ _ => PassedOver.append) passedOver_escapeChar
      hreplacement hraw s .accept [] (fun _ => rfl) (by simp)
  rw [Json.quote, List.cons_append, scanQuotedSegment, if_pos rfl, List.append_assoc, hinside]
  cases rest <;> rfl

/-! ### Lines of files -/

theorem behindPrefix_append (start s : Bytes) : behindPrefix start (start ++ s) = some s := by
  rw [behindPrefix, if_pos (List.prefix_append _ _), List.drop_left]

/-- The line that is written for a file is read as one. -/
theorem isAttachmentReference_referenceLine (attachment : Attachment) :
    isAttachmentReference (referenceLine attachment) = true := by
  rw [isAttachmentReference, referenceLine, behindPrefix_append, Option.bind_some,
    scanQuotedSegment_quote]
  split_ifs with hcall
  · rfl
  · simp only [behindPrefix_append, Option.bind_some, scanQuotedSegment_quote, decide_true,
      Bool.or_true]

theorem oneLine_referenceLine (attachment : Attachment) :
    OneLine (referenceLine attachment) := by
  have hcall : OneLine (lit " (from tool call " ++
      (Json.quote attachment.sourceCallId ++ lit ")")) :=
    Json.oneLine_append (by decide) (Json.oneLine_append (Json.oneLine_quote _) (by decide))
  refine Json.oneLine_append (by decide) (Json.oneLine_append (Json.oneLine_quote _) ?_)
  split_ifs
  · exact List.not_mem_nil
  · exact hcall

/-- Lines that are written for files are a list of files. -/
theorem listsFiles_references (attachments : List Attachment) (referenced : Bool)
    (h : attachments ≠ [] ∨ referenced = true) :
    listsFiles referenced (attachments.map referenceLine) = true := by
  induction attachments generalizing referenced with
  | nil => exact h.resolve_left (fun hne => hne rfl)
  | cons attachment attachments ih =>
    have hblank : blank (referenceLine attachment) = false := by
      have hstart : blank (lit "- path ") = false := by decide
      rw [blank] at hstart
      rw [blank, referenceLine, List.all_append, hstart, Bool.false_and]
    rw [List.map_cons, listsFiles, hblank, isAttachmentReference_referenceLine]
    exact ih true (.inr rfl)

/-! ### The last marker -/

/-- The text that is written for some words and files. -/
def attachedText (prompt : Bytes) (attachments : List Attachment) : Bytes :=
  prompt ++ kAttachedList ++ referenceLines attachments

/-- Bytes of which no two in a row are newlines. -/
def NoBlankLine (s : Bytes) : Prop := s.IsChain fun a b => ¬(a = 0x0a ∧ b = 0x0a)

theorem noBlankLine_cons {line s : Bytes} (hline : OneLine line) (hne : line ≠ [])
    (h : NoBlankLine s) : NoBlankLine (0x0a :: line ++ s) := by
  have hchain : NoBlankLine line :=
    List.Pairwise.isChain (List.pairwise_of_forall_mem_list fun a ha b _ hab => hline (hab.1 ▸ ha))
  obtain ⟨first, line, rfl⟩ := List.exists_cons_of_ne_nil hne
  refine List.isChain_cons.mpr ⟨?_, List.isChain_append.mpr ⟨hchain, h, ?_⟩⟩
  · rintro c hc ⟨-, rfl⟩
    obtain rfl := Option.some.inj hc
    exact hline List.mem_cons_self
  · rintro last hlast next - ⟨rfl, -⟩
    exact hline (List.mem_of_getLast? hlast)

theorem referenceLine_ne_nil (attachment : Attachment) : referenceLine attachment ≠ [] :=
  fun h => absurd (List.append_eq_nil_iff.mp h).1 (by decide)

theorem noBlankLine_referenceLines (attachments : List Attachment) :
    NoBlankLine (referenceLines attachments) := by
  induction attachments with
  | nil => exact .nil
  | cons attachment attachments ih =>
    exact noBlankLine_cons (oneLine_referenceLine attachment) (referenceLine_ne_nil attachment) ih

/-- The marker that is written is the last one in the text. -/
theorem rfind_attachedText (prompt : Bytes) {attachments : List Attachment} (h : attachments ≠ []) :
    rfind (kAttachedList ++ [0x0a]) (attachedText prompt attachments) = some prompt.length := by
  obtain ⟨attachment, attachments, rfl⟩ := List.exists_cons_of_ne_nil h
  rw [attachedText, List.append_assoc]
  refine rfind_append (c := 0x0a) (s := 0x0a :: lit "Attached:" ++ referenceLines _) ?_ ?_ prompt
  · exact ⟨referenceLine attachment ++ referenceLines attachments, rfl⟩
  · intro hlater
    have hchain : NoBlankLine (0x0a :: lit "Attached:" ++ referenceLines (attachment :: attachments)) :=
      noBlankLine_cons (by decide) (by decide) (noBlankLine_referenceLines _)
    have hblank : [0x0a, 0x0a] <:+: kAttachedList ++ [0x0a] := ⟨[], lit "Attached:\n", by decide⟩
    have hpair := List.IsChain.infix hchain (hblank.trans hlater)
    exact (List.isChain_cons.mp hpair).1 0x0a rfl ⟨rfl, rfl⟩

/-- **Stripping** gives back the words, whatever they are. -/
theorem stripAttachedTrailer_attachedText (prompt : Bytes) {attachments : List Attachment}
    (h : attachments ≠ []) : stripAttachedTrailer (attachedText prompt attachments) = prompt := by
  have hbehind : (attachedText prompt attachments).drop
      (prompt.length + (kAttachedList ++ [0x0a]).length) =
        (referenceLines attachments).drop 1 := by
    rw [attachedText, List.append_assoc, List.length_append, ← List.drop_drop, List.drop_left,
      ← List.drop_drop, List.drop_left]
    rfl
  have hlines : fileLines ((referenceLines attachments).drop 1) = attachments.map referenceLine := by
    obtain ⟨attachment, attachments, rfl⟩ := List.exists_cons_of_ne_nil h
    have hline : ∀ line ∈ (attachment :: attachments).map referenceLine,
        OneLine line ∧ line ≠ [] := by
      intro line hline
      obtain ⟨a, -, rfl⟩ := List.mem_map.mp hline
      exact ⟨oneLine_referenceLine a, referenceLine_ne_nil a⟩
    have hjoined := fileLines_joined (referenceLine attachment) (attachments.map referenceLine)
      (fun line h => (hline line h).1) fun line h => (hline line h).2
    rw [List.flatMap_map] at hjoined
    exact hjoined
  rw [stripAttachedTrailer, rfind_attachedText prompt h]
  dsimp only
  rw [hbehind, hlines, listsFiles_references attachments false (.inl h), if_pos rfl, attachedText,
    List.append_assoc, List.take_left]

/-! ### The first marker -/

/-- **The words up to the first marker** are the words if they hold none. -/
theorem take_find_attachedText_iff (prompt : Bytes) (attachments : List Attachment) :
    (find kAttachedList (attachedText prompt attachments)).elim (attachedText prompt attachments)
        (attachedText prompt attachments).take = prompt ↔
      ¬kAttachedList <:+: prompt := by
  -- The marker does not overlap itself.
  have hborder : ∀ k < kAttachedList.length, 0 < k →
      ¬kAttachedList.drop k <+: kAttachedList := by decide
  rw [attachedText, List.append_assoc]
  constructor
  · rintro htake ⟨front, back, hprompt⟩
    obtain ⟨i, hi, hfind⟩ := exists_find_le
      (List.prefix_append kAttachedList (back ++ (kAttachedList ++ referenceLines attachments))) front
    have hsplit : prompt ++ (kAttachedList ++ referenceLines attachments) =
        front ++ (kAttachedList ++ (back ++ (kAttachedList ++ referenceLines attachments))) := by
      rw [← hprompt]
      simp
    rw [hsplit, hfind, Option.elim_some] at htake
    have hshort := (congrArg List.length htake).symm.trans_le (List.length_take_le _ _)
    have hlength := congrArg List.length hprompt
    rw [List.length_append, List.length_append] at hlength
    have hmarker : kAttachedList.length = 11 := by decide
    omega
  · intro hnone
    have hfind : find kAttachedList (prompt ++ (kAttachedList ++ referenceLines attachments)) =
        some prompt.length := by
      rw [find_append prompt, find_append_of_isPrefix (List.prefix_append _ _)]
      · simp
      · intro front back hprompt hback hprefix
        rw [hprompt] at hnone
        by_cases hlong : kAttachedList.length ≤ back.length
        · exact hnone ((List.prefix_of_prefix_length_le hprefix (List.prefix_append _ _)
            hlong).isInfix.trans (List.suffix_append _ _).isInfix)
        · -- It would begin in the words and end in the marker.
          have hstart : back <+: kAttachedList :=
            List.prefix_of_prefix_length_le (List.prefix_append _ _) hprefix (by omega)
          obtain ⟨rest, hrest⟩ := hstart
          have hdrop : kAttachedList.drop back.length = rest := by
            rw [← hrest, List.drop_left]
          rw [← hrest, List.prefix_append_right_inj] at hprefix
          refine hborder back.length (by omega) (List.length_pos_iff.mpr hback) ?_
          have hoverlap : rest <+: back ++ rest :=
            List.prefix_of_prefix_length_le hprefix (List.prefix_append _ _) (by simp)
          rwa [hdrop, ← hrest]
    rw [hfind, Option.elim_some, List.take_left]

/-! ### Both readers -/

/-- The text a message's content begins with. -/
def firstText (content : Json) : Bytes :=
  content.items.head?.elim [] fun part => jsonValueStr part (lit "text") []

/-- **The readers agree with the writer** on a content: stripped of its files it
is the words, and so is the user message with that content, wherever it stands
in a conversation. -/
structure AttachedAgree (prompt : Bytes) (content : Json) : Prop where
  strip : stripAttachedTrailer (firstText content) = prompt
  user : ∀ (c : Conversation) (before after : List ConversationRow) (message : Json) (id : UInt64),
    message.get? (lit "content") = some content →
    c.rows = before ++ ⟨message, .attachment, id⟩ :: after →
    c.userMessageText ((before.countP userRow : Nat) + 1) = prompt

variable {prompt : Bytes} {attachments : List Attachment} {content : Json}

/-- What the writer writes. -/
theorem attachmentContent_ok {fileSize : Bytes → Option Nat} {limitMb : Nat}
    (h : attachmentContent fileSize limitMb prompt attachments = .ok content) :
    ∃ part parts, content = .arr (part :: parts) ∧
      jsonValueStr part (lit "text") [] = attachedText prompt attachments := by
  rw [attachmentContent] at h
  split at h
  · cases h
  · split_ifs at h
    obtain rfl := Except.ok.inj h
    exact ⟨_, _, rfl, rfl⟩

namespace Conversation

theorem userMessageTextFrom_append (turn seen : Int) (before rows : List ConversationRow)
    (hturn : seen + before.countP userRow < turn) :
    userMessageTextFrom turn seen (before ++ rows) =
      userMessageTextFrom turn (seen + before.countP userRow) rows := by
  induction before generalizing seen with
  | nil => simp
  | cons row before ih =>
    rw [List.cons_append, userMessageTextFrom]
    cases huser : isUserMessage row.message row.kind with
    | false =>
      have hcount : (row :: before).countP userRow = before.countP userRow :=
        List.countP_cons_of_neg (by simp [userRow, huser])
      rw [hcount] at hturn ⊢
      exact ih seen hturn
    | true =>
      have hcount : (row :: before).countP userRow = before.countP userRow + 1 :=
        List.countP_cons_of_pos (by simp [userRow, huser])
      rw [hcount, Nat.cast_add_one] at hturn ⊢
      rw [if_neg (by simp), if_pos (by omega), ih (seen + 1) (by omega)]
      congr 1
      omega

end Conversation

/-- A text begins as attachments on request do when its words do. -/
theorem onRequest_prefix_iff (prompt : Bytes) (attachments : List Attachment) :
    kAttachedOnRequest <+: attachedText prompt attachments ↔ kAttachedOnRequest <+: prompt := by
  rw [attachedText, List.append_assoc]
  refine ⟨fun h => ?_, fun h => h.trans (List.prefix_append _ _)⟩
  by_cases hlong : kAttachedOnRequest.length ≤ prompt.length
  · exact List.prefix_of_prefix_length_le h (List.prefix_append _ _) hlong
  · -- It would go on into the marker, which begins with a newline.
    exfalso
    obtain ⟨rest, hrest⟩ :=
      List.prefix_of_prefix_length_le (List.prefix_append prompt _) h (by omega)
    rw [← hrest, List.prefix_append_right_inj] at h
    have hlength := congrArg List.length hrest
    rw [List.length_append] at hlength
    obtain ⟨c, rest, rfl⟩ := List.exists_cons_of_ne_nil (List.length_pos_iff.mp
      (show 0 < rest.length by omega))
    have hnewline : c = 0x0a := (List.cons_prefix_cons.mp h).1
    have hline : 0x0a ∉ kAttachedOnRequest := by decide
    refine hline ?_
    rw [← hrest, ← hnewline]
    simp

/-- **Messages with files.**  The readers agree with the writer if and only if
the words hold no marker and do not begin as attachments on request do. -/
theorem attached_agree_iff {fileSize : Bytes → Option Nat} {limitMb : Nat}
    (hne : attachments ≠ [])
    (h : attachmentContent fileSize limitMb prompt attachments = .ok content) :
    AttachedAgree prompt content ↔
      ¬kAttachedList <:+: prompt ∧ ¬kAttachedOnRequest <+: prompt := by
  obtain ⟨part, parts, rfl, htext⟩ := attachmentContent_ok h
  have hwords : ∀ message : Json, message.get? (lit "content") = some (.arr (part :: parts)) →
      ownWords message = (find kAttachedList (attachedText prompt attachments)).elim
        (attachedText prompt attachments) (attachedText prompt attachments).take := by
    intro message hmessage
    rw [ownWords, hmessage, jsonArray, hmessage]
    dsimp only
    rw [Option.bind_some, List.head?_cons, Option.elim_some, htext]
  have huser : ∀ message : Json, message.get? (lit "content") = some (.arr (part :: parts)) →
      isUserMessage message .attachment = !kAttachedOnRequest.isPrefixOf prompt := by
    intro message hmessage
    have hparts : jsonArray message (lit "content") = some (part :: parts) := by
      rw [jsonArray, hmessage]
    rw [isUserMessage, hparts]
    dsimp only
    rw [htext, Bool.not_inj_iff, Bool.eq_iff_iff, List.isPrefixOf_iff_prefix,
      List.isPrefixOf_iff_prefix, onRequest_prefix_iff]
  constructor
  · intro hagree
    let message : Json := .ofFields [(lit "content", .arr (part :: parts))]
    have hmessage : message.get? (lit "content") = some (.arr (part :: parts)) := rfl
    have hread := hagree.user { rows := [⟨message, .attachment, 0⟩] } [] [] message 0 hmessage rfl
    rw [Conversation.userMessageText, Conversation.userMessageTextFrom, huser message hmessage,
      Bool.not_not] at hread
    have hrequest : ¬kAttachedOnRequest <+: prompt := by
      intro hprefix
      rw [if_pos (List.isPrefixOf_iff_prefix.mpr hprefix)] at hread
      rw [← hread] at hprefix
      exact absurd (List.prefix_nil.mp hprefix) (by decide)
    rw [if_neg (fun hprefix => hrequest (List.isPrefixOf_iff_prefix.mp hprefix)), if_neg (by simp),
      hwords message hmessage, take_find_attachedText_iff] at hread
    exact ⟨hread, hrequest⟩
  · rintro ⟨hmarker, hrequest⟩
    refine ⟨?_, fun c before after message id hmessage hrows => ?_⟩
    · show stripAttachedTrailer (jsonValueStr part (lit "text") []) = prompt
      rw [htext, stripAttachedTrailer_attachedText prompt hne]
    · rw [Conversation.userMessageText, hrows, Conversation.userMessageTextFrom_append _ _ _ _
        (by omega), Conversation.userMessageTextFrom, huser message hmessage, Bool.not_not,
        if_neg (fun hprefix => hrequest (List.isPrefixOf_iff_prefix.mp hprefix)), if_neg (by simp),
        hwords message hmessage, take_find_attachedText_iff]
      exact hmarker

/-- A picture, attached to a question. -/
def attachedPicture : Attachment := { path := lit "/tmp/a \"b\".png", sourceCallId := lit "call" }

theorem attached_agree_question :
    AttachedAgree (lit "What is this?") (.arr
      [.ofFields [(lit "type", .str (lit "text")),
          (lit "text", .str (attachedText (lit "What is this?") [attachedPicture]))],
        attachmentPart attachedPicture]) := by
  have hcontent : attachmentContent (fun _ => some 1) 1 (lit "What is this?") [attachedPicture] =
      .ok (.arr [.ofFields [(lit "type", .str (lit "text")),
          (lit "text", .str (attachedText (lit "What is this?") [attachedPicture]))],
        attachmentPart attachedPicture]) := rfl
  exact (attached_agree_iff (List.cons_ne_nil attachedPicture []) hcontent).mpr
    ⟨by decide, by decide⟩

/-- **Words that hold the marker** are cut at it by one of the readers. -/
theorem attached_marker_in_words :
    let prompt := lit "See log:\n\nAttached: 3 files"
    stripAttachedTrailer (attachedText prompt [attachedPicture]) = prompt ∧
      ownWords (.ofFields [(lit "content", .arr [.ofFields [(lit "text",
        .str (attachedText prompt [attachedPicture]))]])]) = lit "See log:" ∧
      ¬∀ (fileSize : Bytes → Option Nat) (limitMb : Nat) (prompt : Bytes)
        (attachments : List Attachment) (content : Json), attachments ≠ [] →
          attachmentContent fileSize limitMb prompt attachments = .ok content →
          AttachedAgree prompt content := by
  intro prompt
  have hcut : (find kAttachedList (attachedText prompt [attachedPicture])) = some 8 := by decide
  refine ⟨stripAttachedTrailer_attachedText prompt (List.cons_ne_nil _ _), by decide, fun h => ?_⟩
  have hagree := h (fun _ => some 1) 1 prompt [attachedPicture] _ (List.cons_ne_nil _ _) rfl
  let message : Json := .ofFields [(lit "content", .arr (.ofFields [(lit "type", .str (lit "text")),
    (lit "text", .str (attachedText prompt [attachedPicture]))] :: [attachmentPart attachedPicture]))]
  have hread := hagree.user { rows := [⟨message, .attachment, 0⟩] } [] [] message 0 rfl rfl
  revert hread
  decide

end UAgent
