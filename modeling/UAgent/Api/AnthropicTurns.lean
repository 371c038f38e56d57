/-
UAgent/Api/AnthropicTurns.lean

What the Anthropic wire is sent of a conversation.

The messages before the first of the conversation give the system field their
system texts; each of the others has a turn (`laterTurn`), a role and blocks.
The loop gathers the blocks of the turns in groups (`anthropicMessages_eq`).

Main result: `encodeWireRequest_turns`.  Roles alternate, and the blocks sent
are the blocks of the turns, each once and in order.
-/
import UAgent.Api.AnthropicRequest
import UAgent.Base.Occurrences

namespace UAgent

open Bytes

/-! ### Turns -/

/-- The messages before the first of the conversation. -/
def leadingMessages (canonical : List Json) : List Json :=
  canonical.takeWhile fun message => !isConversationRole message

/-- The first message of the conversation and all behind it. -/
def laterMessages (canonical : List Json) : List Json :=
  canonical.dropWhile fun message => !isConversationRole message

/-- The text of a system message; nothing of any other. -/
def systemText (message : Json) : Bytes :=
  if isSystemRole message then contentText message (lit "\n\n") else []

/-- The system texts that open a conversation. -/
def leadingTexts (canonical : List Json) : List Bytes :=
  ((leadingMessages canonical).map systemText).filter (· ≠ [])

section Turns

variable (parse : Bytes → Option Json)

/-- What a message says once the conversation has begun: a system message is
the user's marked text. -/
def laterTurn (message : Json) : Option (AnthropicRole × List Json) :=
  if isSystemRole message then
    let text := systemText message
    some (.user, if text = [] then [] else [textBlock (kHarnessNoteMarker ++ text)])
  else
    match conversationTurn parse message with
    | none => some (.user, [])
    | some (role, blocks) =>
      (anthropicCacheBreakpoint message blocks).map fun blocks => (role, blocks)

/-- A message that ends the cached prefix, where its last block can have no
field to say so. -/
def Unmarkable (message : Json) : Prop :=
  message.contains kCacheBreakpointField = true ∧
    ∃ turn last, conversationTurn parse message = some turn ∧ turn.2.getLast? = some last ∧
      last.isObject = false ∧ last ≠ .null

/-! ### One message -/

theorem jsonValueStr_of_not_isObject {value : Json} (h : value.isObject = false) (key : Bytes) :
    jsonValueStr value key [] = [] := by
  cases value with
  | obj fields => exact Bool.noConfusion h
  | _ => rfl

/-- What is no object has no role that is known. -/
theorem not_isObject {message : Json} (h : message.isObject = false) :
    isSystemRole message = false ∧ isConversationRole message = false := by
  rw [isSystemRole, isConversationRole, jsonValueStr_of_not_isObject h]
  decide

theorem conversationTurn_eq_none {message : Json} (h : isConversationRole message = false) :
    conversationTurn parse message = none := by
  simp only [isConversationRole, decide_eq_false_iff_not, List.mem_cons, List.not_mem_nil,
    or_false, not_or] at h
  simp only [conversationTurn, if_neg h.1, if_neg h.2.1, if_neg h.2.2]

theorem not_isSystemRole {message : Json} (h : isConversationRole message = true) :
    isSystemRole message = false := by
  simp only [isConversationRole, decide_eq_true_eq, List.mem_cons, List.not_mem_nil,
    or_false] at h
  rw [isSystemRole]
  rcases h with h | h | h <;> rw [h] <;> decide

variable {parse} {body : AnthropicBody} {message : Json}

theorem not_isSystemRole_of_turn {turn : AnthropicRole × List Json}
    (h : conversationTurn parse message = some turn) : isSystemRole message = false := by
  refine not_isSystemRole (Bool.eq_true_of_not_eq_false fun hnot => ?_)
  rw [conversationTurn_eq_none parse hnot] at h
  exact Option.some_ne_none turn h.symm

/-! ### What the blocks of a turn are -/

/-- A message that ends no cached prefix is sent as it is. -/
theorem laterTurn_plain {turn : AnthropicRole × List Json}
    (hturn : conversationTurn parse message = some turn)
    (hplain : message.contains kCacheBreakpointField = false) :
    laterTurn parse message = some turn := by
  rw [laterTurn, not_isSystemRole_of_turn hturn, if_neg Bool.false_ne_true, hturn]
  simp [anthropicCacheBreakpoint, hplain]

/-- The mark of a cached prefix is one field of its last block. -/
theorem laterTurn_blocks {role : AnthropicRole} {blocks : List Json}
    {turn : AnthropicRole × List Json}
    (hturn : conversationTurn parse message = some (role, blocks))
    (h : laterTurn parse message = some turn) :
    turn.1 = role ∧ List.Forall₂
      (fun block sent : Json => ∀ key, key ≠ lit "cache_control" → sent.get? key = block.get? key)
      blocks turn.2 := by
  have hsame : ∀ blocks : List Json, List.Forall₂
      (fun block sent : Json => ∀ key, key ≠ lit "cache_control" → sent.get? key = block.get? key)
      blocks blocks := fun blocks => List.forall₂_same.mpr fun _ _ _ _ => rfl
  rw [laterTurn, not_isSystemRole_of_turn hturn, if_neg Bool.false_ne_true, hturn] at h
  obtain ⟨sent, hsent, rfl⟩ := Option.map_eq_some_iff.mp h
  refine ⟨rfl, ?_⟩
  simp only [anthropicCacheBreakpoint] at hsent
  rcases List.eq_nil_or_concat blocks with rfl | ⟨front, last, rfl⟩
  · simp only [List.getLast?_nil] at hsent
    split_ifs at hsent <;> cases hsent <;> exact hsame []
  · simp only [List.concat_eq_append, List.getLast?_concat, List.dropLast_concat] at hsent ⊢
    split_ifs at hsent with hplain hthinking hfield
    · cases hsent
      exact hsame _
    · cases hsent
      exact hsame _
    · cases hsent
      exact List.rel_append (hsame front)
        (.cons (fun key hkey => Json.get?_set_ne _ _ hkey) .nil)

/-- The result of a tool is one block of the user's: its text, under the id of
the call. -/
theorem laterTurn_tool (hrole : jsonValueStr message (lit "role") [] = lit "tool")
    (hplain : message.contains kCacheBreakpointField = false) :
    ∃ block, laterTurn parse message = some (.user, [block]) ∧
      block.get? (lit "type") = some (.str (lit "tool_result")) ∧
      block.get? (lit "tool_use_id") = some (.str (jsonValueStr message (lit "tool_call_id") [])) ∧
      block.get? (lit "content") = some (.str (jsonValueStr message (lit "content") [])) :=
  ⟨toolResult message, laterTurn_plain (by rw [conversationTurn, if_pos hrole]) hplain,
    rfl, rfl, rfl⟩

/-- What a loop keeps of a list of which it skips nothing. -/
theorem forall₂_filterMap {α β : Type*} {f : α → Option β} {R : α → β → Prop} {l : List α}
    (hsome : ∀ a ∈ l, (f a).isSome = true) (hR : ∀ a b, f a = some b → R a b) :
    List.Forall₂ R l (l.filterMap f) := by
  induction l with
  | nil => exact .nil
  | cons a l ih =>
    obtain ⟨b, hb⟩ := Option.isSome_iff_exists.mp (hsome a List.mem_cons_self)
    rw [List.filterMap_cons_some hb]
    exact .cons (hR a b hb) (ih fun a' h' => hsome a' (List.mem_cons_of_mem a h'))

/-- The block of a call has its id, its name, and its arguments where they are
the text of an object. -/
structure IsUseOf (parse : Bytes → Option Json) (call block : Json) : Prop where
  type : block.get? (lit "type") = some (.str (lit "tool_use"))
  id : block.get? (lit "id") = some (.str (jsonValueStr call (lit "id") []))
  name : ∀ function, jsonObject call (lit "function") = some function →
    block.get? (lit "name") = some (.str (jsonValueStr function (lit "name") []))
  input : ∀ function, jsonObject call (lit "function") = some function →
    ∀ arguments, parse (jsonValueStr function (lit "arguments") []) = some arguments →
      arguments.isObject = true → block.get? (lit "input") = some arguments

theorem toolUse_isUseOf {call block : Json} (h : toolUse parse call = some block) :
    IsUseOf parse call block := by
  obtain ⟨function, hfunction, rfl⟩ := Option.map_eq_some_iff.mp h
  refine ⟨rfl, rfl, fun function' h' => ?_, fun function' h' arguments hparse hobject => ?_⟩
  · obtain rfl := Option.some_inj.mp (hfunction.symm.trans h')
    rfl
  · obtain rfl := Option.some_inj.mp (hfunction.symm.trans h')
    rw [hparse, Option.filter_some, if_pos hobject]
    rfl

/-- The calls of an assistant's message are blocks behind those of its
content, one for each. -/
theorem laterTurn_calls (hrole : jsonValueStr message (lit "role") [] = lit "assistant")
    (hplain : message.contains kCacheBreakpointField = false)
    (hreplay : matchingReplay message (lit "anthropic_messages") = none) {calls : List Json}
    (hcalls : jsonArray message (lit "tool_calls") = some calls)
    (hfunctions : ∀ call ∈ calls, (jsonObject call (lit "function")).isSome = true) :
    ∃ uses, List.Forall₂ (IsUseOf parse) calls uses ∧
      laterTurn parse message =
        some (.assistant, anthropicContent (jsonValue message (lit "content") .null) ++ uses) := by
  have hsome : ∀ call ∈ calls, (toolUse parse call).isSome = true := fun call hcall => by
    rw [toolUse, Option.isSome_map]
    exact hfunctions call hcall
  refine ⟨calls.filterMap (toolUse parse), forall₂_filterMap hsome fun _ _ => toolUse_isUseOf,
    laterTurn_plain ?_ hplain⟩
  rw [conversationTurn, hrole, if_neg (by decide), if_neg (by decide), if_pos rfl,
    assistantBlocks, hreplay, hcalls]
  rfl

/-- What lies at a data URI. -/
theorem eq_of_dataUri {uri mediaType data : Bytes} (h : dataUri uri = some (mediaType, data)) :
    uri = lit "data:" ++ mediaType ++ lit ";base64," ++ data := by
  have hshort : (lit "data:").length = 5 := by decide
  have hcut : (lit ";base64,").length = 8 := by decide
  simp only [dataUri] at h
  split_ifs at h with hpre
  obtain ⟨rest, rfl⟩ := hpre
  rw [List.drop_left' hshort] at h
  split at h
  · cases h
  · cases h
  · next split hfind =>
    split_ifs at h
    cases h
    obtain ⟨a, b, rfl, rfl⟩ := exists_eq_append_of_find hfind
    have hdrop : (a ++ (lit ";base64," ++ b)).drop (a.length + 8) = b := by
      rw [← hcut, ← List.length_append, ← List.append_assoc, List.drop_left]
    rw [List.take_left, hdrop]
    simp only [List.append_assoc]

/-- Where an image or a file lies: at a link, or in the block itself. -/
inductive IsSourceOf (uri : Bytes) : Json → Prop
  | url : IsSourceOf uri (.ofFields [(lit "type", .str (lit "url")), (lit "url", .str uri)])
  | data {mediaType data : Bytes}
      (h : uri = lit "data:" ++ mediaType ++ lit ";base64," ++ data) :
      IsSourceOf uri (base64Source mediaType data)

/-- The block of a part is its text, its image or its file. -/
inductive IsBlockOf (part : Json) : Json → Prop
  | text (htype : jsonValueStr part (lit "type") [] = lit "text") :
      IsBlockOf part (textBlock (jsonValueStr part (lit "text") []))
  | image {image source : Json} (htype : jsonValueStr part (lit "type") [] = lit "image_url")
      (himage : jsonObject part (lit "image_url") = some image)
      (hsource : IsSourceOf (jsonValueStr image (lit "url") []) source) :
      IsBlockOf part (.ofFields [(lit "type", .str (lit "image")), (lit "source", source)])
  | file {file source block : Json} (htype : jsonValueStr part (lit "type") [] = lit "file")
      (hfile : jsonObject part (lit "file") = some file)
      (hsource : IsSourceOf (jsonValueStr file (lit "file_data") []) source)
      (hblock : block.get? (lit "type") = some (.str (lit "document")))
      (hheld : block.get? (lit "source") = some source)
      (htitle : block.get? (lit "title") = file.get? (lit "filename")) :
      IsBlockOf part block

theorem imageBlock_isBlockOf {part image block : Json}
    (htype : jsonValueStr part (lit "type") [] = lit "image_url")
    (himage : jsonObject part (lit "image_url") = some image)
    (h : imageBlock image = some block) : IsBlockOf part block := by
  simp only [imageBlock] at h
  split at h
  · next hdata =>
    cases h
    exact .image htype himage (.data (eq_of_dataUri hdata))
  · split_ifs at h
    cases h
    exact .image htype himage .url

theorem documentBlock_isBlockOf {part file block : Json}
    (htype : jsonValueStr part (lit "type") [] = lit "file")
    (hfile : jsonObject part (lit "file") = some file)
    (h : documentBlock file = some block) : IsBlockOf part block := by
  obtain ⟨⟨mediaType, data⟩, hdata, rfl⟩ := Option.map_eq_some_iff.mp h
  have hsource := IsSourceOf.data (eq_of_dataUri hdata)
  cases hname : file.get? (lit "filename") with
  | none => exact .file htype hfile hsource rfl rfl (by rw [hname]; rfl)
  | some name => exact .file htype hfile hsource rfl rfl (by rw [hname]; rfl)

theorem anthropicPart_isBlockOf {part block : Json} (h : anthropicPart part = some block) :
    IsBlockOf part block := by
  simp only [anthropicPart] at h
  split_ifs at h with htext himage hfile
  · cases h
    exact .text htext
  · obtain ⟨image, hheld, himageBlock⟩ := Option.bind_eq_some_iff.mp h
    exact imageBlock_isBlockOf himage hheld himageBlock
  · obtain ⟨file, hheld, hdocument⟩ := Option.bind_eq_some_iff.mp h
    exact documentBlock_isBlockOf hfile hheld hdocument

/-- The parts that a block is sent for: texts, images that lie somewhere, and
files whose data came along. -/
def IsSent (part : Json) : Prop :=
  jsonValueStr part (lit "type") [] = lit "text" ∨
    (jsonValueStr part (lit "type") [] = lit "image_url" ∧
      ∃ image, jsonObject part (lit "image_url") = some image ∧
        jsonValueStr image (lit "url") [] ≠ []) ∨
    (jsonValueStr part (lit "type") [] = lit "file" ∧
      ∃ file, jsonObject part (lit "file") = some file ∧
        (dataUri (jsonValueStr file (lit "file_data") [])).isSome = true)

theorem anthropicPart_isSome {part : Json} (h : IsSent part) :
    (anthropicPart part).isSome = true := by
  rcases h with htext | ⟨htype, image, hheld, hurl⟩ | ⟨htype, file, hheld, hdata⟩
  · simp [anthropicPart, htext]
  · rw [anthropicPart, htype, if_neg (by decide), if_pos rfl, hheld, Option.bind_some, imageBlock]
    split
    · rfl
    · rw [if_neg hurl]
      rfl
  · rw [anthropicPart, htype, if_neg (by decide), if_neg (by decide), if_pos rfl, hheld,
      Option.bind_some, documentBlock, Option.isSome_map]
    exact hdata

/-- The blocks of a content of parts, one for each of those that are sent. -/
theorem anthropicContent_parts {parts : List Json} (h : ∀ part ∈ parts, IsSent part) :
    List.Forall₂ IsBlockOf parts (anthropicContent (.arr parts)) :=
  forall₂_filterMap (fun part hpart => anthropicPart_isSome (h part hpart))
    fun _ _ => anthropicPart_isBlockOf

/-! ### One round of the loop -/

theorem anthropicStep_system (h : isSystemRole message = true) :
    anthropicStep parse body message =
      if systemText message = [] then some body
      else if body.leading then
        some
          { body with
            system := body.system ++ (if body.system = [] then [] else lit "\n\n") ++
              systemText message }
      else
        some
          { body with
            messages := appendAnthropicMessage body.messages .user
              [textBlock (kHarnessNoteMarker ++ systemText message)] } := by
  have hobject : message.isObject ≠ false := fun hobject => by
    rw [(not_isObject hobject).1] at h
    exact Bool.noConfusion h
  rw [anthropicStep, if_neg hobject, if_pos h, systemText, if_pos h]

theorem anthropicStep_other (h : isSystemRole message = false) :
    anthropicStep parse body message =
      (laterTurn parse message).map fun turn =>
        { body with
          messages := appendAnthropicMessage body.messages turn.1 turn.2
          leading := body.leading && !isConversationRole message } := by
  rw [anthropicStep, laterTurn, h]
  by_cases hobject : message.isObject = false
  · obtain ⟨-, hconversation⟩ := not_isObject hobject
    rw [if_pos hobject, conversationTurn_eq_none parse hconversation, hconversation]
    simp [appendAnthropicMessage]
  · rw [if_neg hobject]
    rcases conversationTurn parse message with - | ⟨role, blocks⟩
    · simp [appendAnthropicMessage]
    · simp [Function.comp_def]

/-! ### The loop -/

/-- A text added to those before it. -/
def withText (system text : Bytes) : Bytes :=
  if text = [] then system else system ++ (if system = [] then [] else lit "\n\n") ++ text

/-- Before the conversation, a message adds its system text. -/
theorem anthropicStep_leading (hleading : body.leading = true)
    (h : isConversationRole message = false) :
    anthropicStep parse body message =
      some { body with system := withText body.system (systemText message) } := by
  by_cases hsystem : isSystemRole message = true
  · rw [anthropicStep_system hsystem, withText, if_pos hleading]
    split_ifs <;> rfl
  · have hother := Bool.eq_false_of_not_eq_true hsystem
    rw [anthropicStep_other hother, laterTurn, if_neg hsystem, conversationTurn_eq_none parse h,
      systemText, if_neg hsystem, h, hleading, withText, if_pos rfl]
    rcases body with ⟨messages, system, leading⟩
    cases hleading
    rfl

/-- Behind it, a message adds its turn. -/
theorem anthropicStep_later (hleading : body.leading = false) (message : Json) :
    anthropicStep parse body message =
      (laterTurn parse message).map fun turn =>
        { body with messages := appendAnthropicMessage body.messages turn.1 turn.2 } := by
  by_cases hsystem : isSystemRole message = true
  · rw [anthropicStep_system hsystem, laterTurn, if_pos hsystem]
    by_cases htext : systemText message = []
    · simp [htext, appendAnthropicMessage]
    · simp [htext, hleading]
  · rw [anthropicStep_other (Bool.eq_false_of_not_eq_true hsystem), hleading, Bool.false_and]

/-- The first message of the conversation ends what opens it. -/
theorem anthropicStep_first (body : AnthropicBody) (h : isConversationRole message = true) :
    anthropicStep parse body message =
      anthropicStep parse { body with leading := false } message := by
  rw [anthropicStep_other (not_isSystemRole h), anthropicStep_other (not_isSystemRole h), h]
  simp

theorem joinWith_eq_nil {texts : List Bytes} (htexts : [] ∉ texts) :
    joinWith (lit "\n\n") texts = [] ↔ texts = [] := by
  refine ⟨fun h => ?_, fun h => h ▸ rfl⟩
  by_contra hne
  obtain ⟨first, rest, rfl⟩ := List.exists_cons_of_ne_nil hne
  rw [joinWith, List.append_eq_nil_iff] at h
  exact htexts (h.1 ▸ List.mem_cons_self)

theorem withText_joinWith {texts : List Bytes} (htexts : [] ∉ texts) (text : Bytes) :
    withText (joinWith (lit "\n\n") texts) text =
      joinWith (lit "\n\n") (texts ++ [text].filter (· ≠ [])) := by
  rw [withText]
  by_cases htext : text = []
  · simp [htext]
  · rw [if_neg htext, List.filter_cons_of_pos (by simpa using htext), List.filter_nil]
    by_cases hnil : texts = []
    · simp [hnil]
    · rw [if_neg (mt (joinWith_eq_nil htexts).mp hnil),
        joinWith_append _ hnil (List.cons_ne_nil _ _), joinWith_singleton]

/-- The messages before the conversation add their system texts. -/
theorem foldlM_leading {messages : List Json}
    (h : ∀ message ∈ messages, isConversationRole message = false) {texts : List Bytes}
    (htexts : [] ∉ texts) :
    messages.foldlM (anthropicStep parse) { system := joinWith (lit "\n\n") texts } =
      some
        { system :=
            joinWith (lit "\n\n") (texts ++ (messages.map systemText).filter (· ≠ [])) } := by
  induction messages generalizing texts with
  | nil => simp
  | cons message messages ih =>
    obtain ⟨hmessage, hmessages⟩ := List.forall_mem_cons.mp h
    have hnext : [] ∉ texts ++ [systemText message].filter (· ≠ []) := by
      simp [htexts]
    rw [List.foldlM_cons, anthropicStep_leading rfl hmessage, Option.bind_eq_bind, Option.bind_some,
      withText_joinWith htexts, ih hmessages hnext, List.append_assoc, ← List.filter_append]
    rfl

/-- The messages behind it add their turns. -/
theorem foldlM_later (messages : List Json) {body : AnthropicBody}
    (hleading : body.leading = false) :
    messages.foldlM (anthropicStep parse) body =
      (messages.mapM (laterTurn parse)).map fun turns =>
        { body with
          messages :=
            turns.foldl (fun sent turn => Groups.put sent turn.1 turn.2) body.messages } := by
  induction messages generalizing body with
  | nil => rfl
  | cons message messages ih =>
    rw [List.foldlM_cons, List.mapM_cons, anthropicStep_later hleading]
    rcases laterTurn parse message with - | turn
    · rfl
    · have hrest := @ih
        { body with messages := appendAnthropicMessage body.messages turn.1 turn.2 } hleading
      rw [Option.map_some, Option.bind_eq_bind, Option.bind_some, hrest]
      rcases messages.mapM (laterTurn parse) with - | turns <;> rfl

/-- **What the loop makes of a conversation.** -/
theorem anthropicMessages_eq (canonical : List Json) :
    anthropicMessages parse canonical =
      ((laterMessages canonical).mapM (laterTurn parse)).map fun turns =>
        { messages := turns.foldl (fun sent turn => Groups.put sent turn.1 turn.2) []
          system := joinWith (lit "\n\n") (leadingTexts canonical)
          leading := (laterMessages canonical).isEmpty } := by
  have hleading : ∀ message ∈ leadingMessages canonical, isConversationRole message = false :=
    fun message h => by simpa using List.mem_takeWhile_imp h
  have hsplit : canonical = leadingMessages canonical ++ laterMessages canonical :=
    List.takeWhile_append_dropWhile.symm
  have hopening := @foldlM_leading parse _ hleading [] List.not_mem_nil
  rw [joinWith_nil, List.nil_append, ← leadingTexts] at hopening
  rw [anthropicMessages]
  conv_lhs => rw [hsplit, List.foldlM_append, hopening, Option.bind_eq_bind, Option.bind_some]
  rcases hlater : laterMessages canonical with - | ⟨first, messages⟩
  · rfl
  · have hfirst : isConversationRole first = true := by
      have hhead := List.head?_dropWhile_not (fun message => !isConversationRole message) canonical
      rw [← laterMessages, hlater] at hhead
      simpa using hhead
    rw [List.foldlM_cons, anthropicStep_first _ hfirst, ← List.foldlM_cons, foldlM_later _ rfl]
    rfl

theorem laterTurn_eq_none_iff : laterTurn parse message = none ↔ Unmarkable parse message := by
  constructor
  · intro h
    rw [laterTurn] at h
    split_ifs at h
    rcases hturn : conversationTurn parse message with - | turn
    · simp [hturn] at h
    · rw [hturn, Option.map_eq_none_iff, anthropicCacheBreakpoint] at h
      split_ifs at h with hmarked
      refine ⟨Bool.eq_true_of_not_eq_false hmarked, turn, ?_⟩
      rcases hlast : turn.2.getLast? with - | last
      · simp [hlast] at h
      · simp only [hlast] at h
        split_ifs at h with hthinking hfield
        obtain ⟨hobject, hnull⟩ := not_or.mp hfield
        exact ⟨last, hturn, rfl, Bool.eq_false_of_not_eq_true hobject, hnull⟩
  · rintro ⟨hmarked, turn, last, hturn, hlast, hobject, hnull⟩
    have hthinking : ¬lit "thinking" <:+ [] := by decide
    simp only [laterTurn, not_isSystemRole_of_turn hturn, hturn, anthropicCacheBreakpoint, hmarked,
      hlast, jsonValueStr_of_not_isObject hobject, if_neg hthinking, hobject, hnull]
    simp

/-! ### The body -/

theorem mapM_eq_none_iff {α β : Type*} {f : α → Option β} {l : List α} :
    l.mapM f = none ↔ ∃ a ∈ l, f a = none := by
  induction l with
  | nil => simp
  | cons a l ih =>
    rw [List.mapM_cons, List.exists_mem_cons_iff, ← ih]
    rcases f a with - | b <;> rcases l.mapM f with - | bs <;> simp

theorem requestEnvelope_isObject (request : AnthropicRequest) :
    (requestEnvelope request).isObject = true := by
  simp only [requestEnvelope]
  split_ifs <;> rfl

theorem requestEnvelope_system (request : AnthropicRequest) :
    (requestEnvelope request).get? (lit "system") = none := by
  have hstart : (Json.ofFields
      [(lit "model", .str request.model), (lit "stream", .bool true)]).get? (lit "system") = none :=
    rfl
  simp only [requestEnvelope]
  split_ifs <;> simp (disch := decide) only [Json.get?_set_ne, hstart]

/-- **What the Anthropic wire is sent of a conversation.**  Its messages
alternate between the roles, and their blocks are those of the turns, each once
and in order; the system field holds the texts that open the conversation. -/
theorem encodeWireRequest_turns (parse : Bytes → Option Json) (request : AnthropicRequest)
    (canonical : List Json) :
    (∀ turns, (laterMessages canonical).mapM (laterTurn parse) = some turns →
      ∃ body messages,
        encodeWireRequest parse { request with messages := .arr canonical } = some body ∧
          body.get? (lit "messages") = some (.arr (messages.map anthropicMessage)) ∧
            Groups.Alternate messages ∧ Groups.spread messages = Groups.spread turns ∧
              (messages.map Prod.fst).head? = (Groups.spread turns).head?.map Prod.fst ∧
                body.get? (lit "system") =
                  if leadingTexts canonical = [] then none
                  else some (anthropicSystem (joinWith (lit "\n\n") (leadingTexts canonical)))) ∧
      (encodeWireRequest parse { request with messages := .arr canonical } = none ↔
        ∃ message ∈ laterMessages canonical, Unmarkable parse message) := by
  have hencode : encodeWireRequest parse { request with messages := .arr canonical } =
      (anthropicMessages parse canonical).map fun made =>
        let body := (requestEnvelope { request with messages := .arr canonical }).set
          (lit "messages") (.arr (made.messages.map anthropicMessage))
        if made.system = [] then body
        else body.set (lit "system") (anthropicSystem made.system) := rfl
  rw [hencode, anthropicMessages_eq]
  refine ⟨fun turns hturns => ?_, ?_⟩
  · have hobject := requestEnvelope_isObject { request with messages := .arr canonical }
    have hsystem := requestEnvelope_system { request with messages := .arr canonical }
    have hspread := @Groups.spread_foldl_put AnthropicRole Json _ [] turns
    have halternate := @Groups.Alternate.nil AnthropicRole Json |>.foldl_put turns
    have htexts : [] ∉ leadingTexts canonical := by
      simp [leadingTexts]
    rw [Groups.spread_nil, List.nil_append] at hspread
    rw [hturns]
    refine ⟨_, _, rfl, ?_, halternate, hspread, hspread ▸ halternate.head_key, ?_⟩
    · dsimp only
      split_ifs
      · rw [Json.get?_set hobject, if_pos rfl]
      · rw [Json.get?_set_ne _ _ (by decide), Json.get?_set hobject, if_pos rfl]
    · dsimp only
      simp only [joinWith_eq_nil htexts]
      split_ifs
      · rw [Json.get?_set_ne _ _ (by decide), hsystem]
      · rw [Json.get?_set (Json.isObject_set hobject _ _), if_pos rfl]
  · simp only [Option.map_eq_none_iff, mapM_eq_none_iff, laterTurn_eq_none_iff]

end Turns

/-- A message of a role. -/
def roleMessage (role : Bytes) (content : Json) : Json :=
  .ofFields [(lit "role", .str role), (lit "content", content)]

/-- A conversation that an assistant opens is sent so, and a part of a type
that is not known is not sent. -/
theorem encodeWireRequest_astray :
    (encodeWireRequest (fun _ => none)
          { model := lit "m"
            messages := .arr [roleMessage (lit "assistant") (.str (lit "hi"))] }).bind
        (·.get? (lit "messages")) =
      some (.arr [anthropicMessage (.assistant, [textBlock (lit "hi")])]) ∧
    (encodeWireRequest (fun _ => none)
          { model := lit "m"
            messages := .arr [roleMessage (lit "user")
              (.arr [.ofFields [(lit "type", .str (lit "input_audio"))]])] }).bind
        (·.get? (lit "messages")) =
      some (.arr []) := by
  constructor <;> decide +kernel

end UAgent
