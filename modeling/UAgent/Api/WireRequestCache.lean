/-
UAgent/Api/WireRequestCache.lean

What the client sends (`Api::ChatPayload`, src/api/wire_request.cc).  A
conversation grows at its end, so the texts of its messages are kept from one
request to the next and joined (`WireRequestCache`); the body is written with a
slot where they go.

The loop over the messages makes the text of what `EncodeWireRequest` sends
(`encodeAll_eq`), whatever is kept, as long as it is what its message gives
(`encodeAll_kept`).
-/
import UAgent.Api.WireRequest
import UAgent.Api.AnthropicTurns

namespace UAgent

open Bytes Json

/-! ### What is kept -/

/-- `kEncodedSlot` -/
def kEncodedSlot : Bytes := 1 :: (lit "uagent-encoded" ++ [1])

/-- `WireRequestCache::Message` -/
structure CachedMessage where
  source : Json := .null
  body : Bytes := []
  role : Bytes := []
  system : Bytes := []
  valid : Bool := false
  leading : Bool := true

/-- `WireRequestCache` -/
structure WireRequestCache where
  wireApi : WireApi := .chatCompletions
  messages : List CachedMessage := []
  toolKey : Json := .null
  schemas : Json := .null
  active : Bool := false
  encodedMessages : Bytes := []
  encodedTools : Bytes := []

/-- What the encoded tools are told apart by. -/
def WireRequest.toolKey (request : WireRequest) : Json :=
  .arr [.bool request.nativeWebSearch, .arr request.hostedTools]

section Encoding

variable [DoubleText] (parse : Bytes → Option Json) (limits : SearchLimits)

/-- `ArrayContents` -/
def arrayContents (items : List Json) : Bytes :=
  let text := dump (.arr items)
  (text.drop 1).take (text.length - 2)

/-- An entry with what the Anthropic wire is sent of its message. -/
def CachedMessage.ofAnthropic (entry : CachedMessage) (made : AnthropicBody) : CachedMessage :=
  match made.messages with
  | [] => { entry with system := made.system }
  | message :: _ =>
    { entry with
      system := made.system
      role := message.1.text
      body := arrayContents message.2 }

/-- A message encoded on its own. -/
def encodeMessage (wireApi : WireApi) (promptCacheControl leading : Bool) (source : Json) :
    Option CachedMessage :=
  let entry : CachedMessage := { source := source, valid := true, leading := leading }
  match wireApi with
  | .chatCompletions =>
    some { entry with body := arrayContents (chatMessages [source] promptCacheControl) }
  | .responses => some { entry with body := arrayContents (responsesInput [source]) }
  | .anthropicMessages =>
    ([source].foldlM (anthropicStep parse) { leading := leading }).map entry.ofAnthropic

/-- What has been joined: the texts of the messages, the system texts, and the
role of the message that is still open. -/
structure EncodedText where
  text : Bytes := lit "["
  system : Bytes := []
  role : Bytes := []

/-- What closes a message of a role. -/
def roleEnd (role : Bytes) : Bytes := lit "],\"role\":" ++ dump (.str role) ++ lit "\x7d"

/-- A message joined to those before it. -/
def EncodedText.add (done : EncodedText) (wireApi : WireApi) (entry : CachedMessage) :
    EncodedText :=
  let done := { done with system := withText done.system entry.system }
  if entry.body = [] then done
  else if wireApi = .anthropicMessages then
    if done.role = entry.role then { done with text := done.text ++ lit "," ++ entry.body }
    else
      { done with
        text := done.text ++ (if done.role = [] then [] else roleEnd done.role ++ lit ",") ++
          lit "\x7b\"content\":[" ++ entry.body
        role := entry.role }
  else
    { done with
      text := done.text ++ (if 1 < done.text.length then lit "," else []) ++ entry.body }

/-- The text of the array. -/
def EncodedText.closed (done : EncodedText) : Bytes :=
  done.text ++ (if done.role = [] then [] else roleEnd done.role) ++ lit "]"

/-- The loop of `Encode`: what is kept of the messages then, and their text. -/
def encodeAll (wireApi : WireApi) (promptCacheControl : Bool) :
    List CachedMessage → List Json → Bool → EncodedText →
      Option (List CachedMessage × EncodedText)
  | _, [], _, done => some ([], done)
  | entries, source :: sources, leading, done =>
    let held := entries.headD {}
    let entry :=
      if !held.valid || !held.source.eqv source || held.leading ≠ leading then
        encodeMessage parse wireApi promptCacheControl leading source
      else some held
    entry.bind fun entry =>
      (encodeAll wireApi promptCacheControl entries.tail sources
          (leading && !isConversationRole source) (done.add wireApi entry)).map
        fun (kept, done) => (entry :: kept, done)

namespace WireRequestCache

/-- What is kept belongs to one wire. -/
def onWire (cache : WireRequestCache) (wireApi : WireApi) : WireRequestCache :=
  if cache.wireApi = wireApi then cache
  else { cache with messages := [], toolKey := .null, wireApi := wireApi }

/-- The tools' text, made again where it is not that of the request. -/
def withTools (cache : WireRequestCache) (wireApi : WireApi) (request : WireRequest) :
    WireRequestCache :=
  if !request.toolKey.eqv cache.toolKey || !cache.schemas.eqv request.toolSchemas then
    { cache with
      encodedTools := dump (.arr (requestTools limits wireApi request))
      toolKey := request.toolKey
      schemas := request.toolSchemas }
  else cache

/-- The cache with the texts of a request. -/
def stored (cache : WireRequestCache) (wireApi : WireApi) (request : WireRequest)
    (messages : List CachedMessage) (done : EncodedText) : WireRequestCache :=
  { cache with
    messages := messages
    active := true
    encodedMessages := done.closed }.withTools limits wireApi request

/-- `WireRequestCache::Encode` -/
def encode (cache : WireRequestCache) (wireApi : WireApi) (request : WireRequest) :
    Option (WireRequestCache × Json) :=
  match request.messages with
  | .arr sources =>
    let cache := cache.onWire wireApi
    (encodeAll parse wireApi request.promptCacheControl cache.messages sources true {}).map
      fun (messages, done) =>
        let cache := cache.stored limits wireApi request messages done
        let tools := if cache.encodedTools = lit "[]" then .arr [] else .str kEncodedSlot
        let body := (wireApi.requestEnvelope request tools).set wireApi.messagesField
          (.str kEncodedSlot)
        (cache, body.setIf (done.system ≠ []) (lit "system") (anthropicSystem done.system))
  | _ =>
    (wireApi.encodeWireRequest parse limits request).map
      fun body => ({ cache with active := false }, body)

/-- One round of the loop of `Serialize`. -/
def fill (cache : WireRequestCache) (body : Json) (payload field : Bytes) : Bytes :=
  if jsonValueStr body field [] ≠ kEncodedSlot then payload
  else
    Json.fillSlot kEncodedSlot payload field
      (if field = lit "tools" then cache.encodedTools else cache.encodedMessages)

/-- `WireRequestCache::Serialize` -/
def serialize (cache : WireRequestCache) (body : Json) : Bytes :=
  if cache.active = false then dump body
  else [lit "messages", lit "input", lit "tools"].foldl (cache.fill body) (dump body)

end WireRequestCache

/-! ### A client -/

/-- A request of a client as its settings are then. -/
structure ChatCall where
  api : ApiSettings
  messages : Json
  toolSchemas : Json
  sessionId : Bytes := []

namespace ChatCall

/-- The request in the words of its wire. -/
def request (call : ChatCall) : WireRequest := call.api.wireRequest call.messages call.toolSchemas

/-- The body it has without a cache. -/
def body (call : ChatCall) : Option Json :=
  call.api.buildRequestBody parse limits call.messages call.toolSchemas call.sessionId

/-- `Api::ChatPayload` -/
def chatPayload (call : ChatCall) (cache : WireRequestCache) :
    Option (WireRequestCache × Bytes) :=
  (cache.encode parse limits call.api.wireApi call.request).map fun (cache, body) =>
    (cache, cache.serialize (call.api.completed limits call.messages call.sessionId body))

end ChatCall

/-- The payloads of a client's requests, one after another, up to one that
throws. -/
def payloads : WireRequestCache → List ChatCall → Option (List Bytes)
  | _, [] => some []
  | cache, call :: calls =>
    (call.chatPayload parse limits cache).bind fun (cache, payload) =>
      (payloads cache calls).map (payload :: ·)

end Encoding

/-! ### Texts -/

section Texts

variable [DoubleText]

theorem arrayContents_eq (items : List Json) :
    arrayContents items = joinWith [ch ','] (items.map dump) := by
  have hlength : (dump (.arr items)).length - 2 =
      (joinWith [ch ','] (items.map dump)).length := by
    rw [dump_arr, List.length_cons, List.length_append, List.length_singleton]
    omega
  rw [arrayContents, hlength, dump_arr]
  exact List.take_left

/-- No value is written as nothing, if no number is. -/
theorem dump_ne_nil (hnumbers : ∀ x : Double, DoubleText.toChars x ≠ []) (j : Json) :
    dump j ≠ [] := by
  cases j with
  | null => rw [dump]; decide
  | bool b => cases b <;> rw [dump] <;> decide
  | int n =>
    rw [dump, decimalInt]
    split_ifs
    · exact List.cons_ne_nil _ _
    · exact decimal_ne_nil _
  | uint n => rw [dump]; exact decimal_ne_nil _
  | float x =>
    rw [dump]
    split_ifs
    · exact hnumbers x
    · decide
  | str s => rw [dump]; exact List.cons_ne_nil _ _
  | arr items => rw [dump]; exact List.cons_ne_nil _ _
  | obj fields => rw [dump]; exact List.cons_ne_nil _ _

theorem arrayContents_eq_nil (hnumbers : ∀ x : Double, DoubleText.toChars x ≠ [])
    {items : List Json} : arrayContents items = [] ↔ items = [] := by
  rw [arrayContents_eq]
  constructor
  · intro h
    rcases items with - | ⟨item, items⟩
    · rfl
    · rw [List.map_cons, joinWith, List.append_eq_nil_iff] at h
      exact absurd h.1 (dump_ne_nil hnumbers item)
  · rintro rfl
    rfl

theorem joinWith_dump_append {a b : List Json} (ha : a ≠ []) (hb : b ≠ []) :
    joinWith [ch ','] ((a ++ b).map dump) =
      joinWith [ch ','] (a.map dump) ++ lit "," ++ joinWith [ch ','] (b.map dump) := by
  have hmap : ∀ {l : List Json}, l ≠ [] → l.map dump ≠ [] := fun hl => by simpa using hl
  rw [List.map_append, joinWith_append _ (hmap ha) (hmap hb)]
  rfl

/-- The text of an array that is still open. -/
def openText (items : List Json) : Bytes := lit "[" ++ joinWith [ch ','] (items.map dump)

theorem length_openText (hnumbers : ∀ x : Double, DoubleText.toChars x ≠ []) (items : List Json) :
    1 < (openText items).length ↔ items ≠ [] := by
  have hopening : (lit "[").length = 1 := rfl
  rw [← (arrayContents_eq_nil hnumbers).ne, arrayContents_eq, openText, List.length_append,
    ← List.length_pos_iff]
  omega

/-- Joining items of a wire that takes them one by one. -/
theorem add_items (hnumbers : ∀ x : Double, DoubleText.toChars x ≠ []) {wireApi : WireApi}
    (hwire : wireApi ≠ .anthropicMessages) {done : EncodedText} {items : List Json}
    (h : done.text = openText items) (new : List Json) {entry : CachedMessage}
    (hbody : entry.body = arrayContents new) (hsystem : entry.system = []) :
    done.add wireApi entry = { done with text := openText (items ++ new) } := by
  have hsame : withText done.system entry.system = done.system := by
    rw [hsystem, withText, if_pos rfl]
  rw [EncodedText.add, hsame]
  dsimp only
  by_cases hnew : new = []
  · rw [if_pos (hbody.trans ((arrayContents_eq_nil hnumbers).mpr hnew)), hnew, List.append_nil, ← h]
  · rw [if_neg (fun hnil => hnew ((arrayContents_eq_nil hnumbers).mp (hbody.symm.trans hnil))),
      if_neg hwire, h, hbody, arrayContents_eq]
    congr 1
    by_cases hitems : items = []
    · rw [hitems, if_neg (mt (length_openText hnumbers []).mp (fun h => h rfl))]
      simp [openText]
    · rw [if_pos ((length_openText hnumbers items).mpr hitems), openText, openText,
        joinWith_dump_append hitems hnew]
      simp [List.append_assoc]

theorem closed_items {done : EncodedText} {items : List Json} (h : done.text = openText items)
    (hrole : done.role = []) : done.closed = dump (.arr items) := by
  rw [EncodedText.closed, hrole, if_pos rfl, h, dump_arr, openText, List.append_nil]
  rfl

/-! ### Messages of the Anthropic wire -/

/-- What has been joined of the messages: all but the newest are closed. -/
inductive Joined : EncodedText → List (AnthropicRole × List Json) → Prop
  | start {system : Bytes} : Joined { system := system } []
  | within {done : EncodedText} {before : List (AnthropicRole × List Json)} {role : AnthropicRole}
      {held : List Json} (hheld : held ≠ []) (hrole : done.role = role.text)
      (htext : done.text = lit "[" ++
        (before.flatMap fun message => dump (anthropicMessage message) ++ lit ",") ++
          (lit "\x7b\"content\":[" ++ joinWith [ch ','] (held.map dump))) :
      Joined done (before ++ [(role, held)])

theorem dump_anthropicMessage (role : AnthropicRole) (blocks : List Json) :
    dump (anthropicMessage (role, blocks)) =
      lit "\x7b\"content\":[" ++ joinWith [ch ','] (blocks.map dump) ++ roleEnd role.text := by
  have hfields : anthropicMessage (role, blocks) =
      .obj [(lit "content", .arr blocks), (lit "role", .str role.text)] := rfl
  have hcontent : Json.quote (lit "content") = lit "\"content\"" := by decide
  have hrole : Json.quote (lit "role") = lit "\"role\"" := by decide
  have hopening : lit "\x7b\"content\":[" = ch '{' :: (lit "\"content\"" ++ [ch ':', ch '[']) := by
    decide
  have hending : lit "],\"role\":" = ch ']' :: ch ',' :: (lit "\"role\"" ++ [ch ':']) := by decide
  have hbrace : lit "\x7d" = [ch '}'] := by decide
  have hpair : ∀ a b : Bytes, joinWith [ch ','] [a, b] = a ++ ch ',' :: b := fun a b => by
    simp [joinWith]
  rw [hfields, dump_obj, List.map_cons, List.map_cons, List.map_nil, hpair, dumpField, dumpField,
    dump_arr, hcontent, hrole, roleEnd, hopening, hending, hbrace]
  simp only [List.cons_append, List.append_assoc, List.nil_append]

omit [DoubleText] in
theorem text_ne_nil (role : AnthropicRole) : role.text ≠ [] := by
  cases role <;> decide

omit [DoubleText] in
theorem text_injective {role other : AnthropicRole} (h : role.text = other.text) :
    role = other := by
  cases role <;> cases other <;> first | rfl | exact absurd h (by decide)

theorem Joined.nil {done : EncodedText} (h : Joined done []) :
    done.text = lit "[" ∧ done.role = [] := by
  generalize hnil : ([] : List (AnthropicRole × List Json)) = messages at h
  cases h with
  | start => exact ⟨rfl, rfl⟩
  | within => exact absurd hnil.symm (List.append_ne_nil_of_right_ne_nil _ (List.cons_ne_nil _ _))

theorem Joined.concat {done : EncodedText} {before : List (AnthropicRole × List Json)}
    {role : AnthropicRole} {held : List Json} (h : Joined done (before ++ [(role, held)])) :
    held ≠ [] ∧ done.role = role.text ∧ done.text = lit "[" ++
      (before.flatMap fun message => dump (anthropicMessage message) ++ lit ",") ++
        (lit "\x7b\"content\":[" ++ joinWith [ch ','] (held.map dump)) := by
  generalize hmessages : before ++ [(role, held)] = messages at h
  cases h with
  | start => exact absurd hmessages (List.append_ne_nil_of_right_ne_nil _ (List.cons_ne_nil _ _))
  | within hheld hrole htext =>
    obtain ⟨rfl, hlast⟩ := List.append_inj' hmessages rfl
    cases hlast
    exact ⟨hheld, hrole, htext⟩

theorem Joined.closed {done : EncodedText} {messages : List (AnthropicRole × List Json)}
    (h : Joined done messages) : done.closed = dump (.arr (messages.map anthropicMessage)) := by
  cases h with
  | start => rw [dump_arr]; rfl
  | within hheld hrole htext =>
    rename_i before role held
    rw [EncodedText.closed, hrole, if_neg (text_ne_nil role), htext, dump_arr, List.map_map,
      List.map_append, List.map_singleton, joinWith_append_cons, List.flatMap_nil, List.append_nil,
      List.flatMap_map]
    simp only [Function.comp, dump_anthropicMessage, List.append_assoc]
    rfl

/-- Blocks are joined to the newest message, or open the next. -/
theorem Joined.add {done : EncodedText} {messages : List (AnthropicRole × List Json)}
    (h : Joined done messages) (hnumbers : ∀ x : Double, DoubleText.toChars x ≠ [])
    {role : AnthropicRole} {blocks : List Json} (hblocks : blocks ≠ []) {entry : CachedMessage}
    (hbody : entry.body = arrayContents blocks) (hrole : entry.role = role.text) :
    Joined (done.add .anthropicMessages entry) (Groups.put messages role blocks) := by
  have hne : entry.body ≠ [] := fun hnil =>
    hblocks ((arrayContents_eq_nil hnumbers).mp (hbody.symm.trans hnil))
  rw [EncodedText.add]
  dsimp only
  rw [if_neg hne, if_pos rfl, hbody, hrole, arrayContents_eq]
  rcases Groups.put_cases messages role hblocks with ⟨before, held, rfl, hput⟩ | ⟨hnew, hput⟩
  · obtain ⟨hheld, hsame, htext⟩ := h.concat
    rw [hput, if_pos hsame]
    refine .within (List.append_ne_nil_of_left_ne_nil hheld _) hsame ?_
    dsimp only
    rw [htext, joinWith_dump_append hheld hblocks]
    simp only [List.append_assoc]
  · rw [hput]
    rcases List.eq_nil_or_concat' messages with rfl | ⟨before, ⟨other, held⟩, rfl⟩
    · obtain ⟨htext, hnone⟩ := h.nil
      rw [if_neg (hnone ▸ (text_ne_nil role).symm), if_pos hnone, htext]
      refine .within hblocks rfl ?_
      simp [List.append_assoc]
    · obtain ⟨hheld, hother, htext⟩ := h.concat
      have hdiffer : done.role ≠ role.text := fun heq =>
        hnew (other, held) (by simp) (text_injective (hother.symm.trans heq))
      rw [if_neg hdiffer, if_neg (hother ▸ text_ne_nil other), htext, hother]
      refine .within hblocks rfl ?_
      rw [List.flatMap_append, List.flatMap_singleton, dump_anthropicMessage]
      simp only [List.append_assoc]

end Texts

/-! ### The loop, with nothing kept -/

section Fresh

variable [DoubleText] {parse : Bytes → Option Json} {promptCacheControl leading : Bool}
  {source : Json} {sources : List Json} {done : EncodedText}

/-- What a message gives a wire that takes its items one by one. -/
def itemsOf (wireApi : WireApi) (promptCacheControl : Bool) (source : Json) : List Json :=
  match wireApi with
  | .chatCompletions => [chatMessage promptCacheControl source]
  | .responses => if source.isObject then responsesItems source else []
  | .anthropicMessages => []

theorem encodeAll_fresh (wireApi : WireApi) :
    encodeAll parse wireApi promptCacheControl [] (source :: sources) leading done =
      (encodeMessage parse wireApi promptCacheControl leading source).bind fun entry =>
        (encodeAll parse wireApi promptCacheControl [] sources
            (leading && !isConversationRole source) (done.add wireApi entry)).map
          fun (kept, done) => (entry :: kept, done) := rfl

theorem encodeMessage_items {wireApi : WireApi} (hwire : wireApi ≠ .anthropicMessages) :
    encodeMessage parse wireApi promptCacheControl leading source =
      some
        { source := source
          body := arrayContents (itemsOf wireApi promptCacheControl source)
          valid := true
          leading := leading } := by
  cases wireApi with
  | chatCompletions => rfl
  | responses => simp [encodeMessage, itemsOf, responsesInput]
  | anthropicMessages => exact absurd rfl hwire

theorem encodeAll_items (hnumbers : ∀ x : Double, DoubleText.toChars x ≠ []) {wireApi : WireApi}
    (hwire : wireApi ≠ .anthropicMessages) {items : List Json} (h : done.text = openText items) :
    ∃ kept, encodeAll parse wireApi promptCacheControl [] sources leading done =
      some (kept,
        { done with
          text := openText (items ++ sources.flatMap (itemsOf wireApi promptCacheControl)) }) := by
  induction sources generalizing leading done items with
  | nil =>
    refine ⟨[], ?_⟩
    rw [List.flatMap_nil, List.append_nil, ← h]
    rfl
  | cons source sources ih =>
    rw [encodeAll_fresh, encodeMessage_items hwire, Option.bind_some,
      add_items hnumbers hwire h (itemsOf wireApi promptCacheControl source) rfl rfl]
    obtain ⟨kept, hkept⟩ := @ih (leading && !isConversationRole source)
      { done with text := openText (items ++ itemsOf wireApi promptCacheControl source) } _ rfl
    rw [hkept, Option.map_some, List.append_assoc, List.flatMap_cons]
    exact ⟨_, rfl⟩

theorem encodeMessage_anthropic :
    encodeMessage parse .anthropicMessages promptCacheControl leading source =
      (anthropicStep parse { leading := leading } source).map
        (CachedMessage.ofAnthropic { source := source, valid := true, leading := leading }) := by
  simp [encodeMessage]

theorem add_system (done : EncodedText) (wireApi : WireApi) (entry : CachedMessage) :
    (done.add wireApi entry).system = withText done.system entry.system := by
  unfold EncodedText.add
  dsimp only
  split_ifs <;> rfl

/-- The system texts are kept apart. -/
theorem Joined.withSystem {messages : List (AnthropicRole × List Json)} (h : Joined done messages)
    (system : Bytes) : Joined { done with system := system } messages := by
  cases h with
  | start => exact .start
  | within hheld hrole htext => exact .within hheld hrole htext

/-- A message alone is one message, or none where it has no blocks. -/
theorem Joined.addAlone {messages : List (AnthropicRole × List Json)} (h : Joined done messages)
    (hnumbers : ∀ x : Double, DoubleText.toChars x ≠ []) (entry : CachedMessage)
    (hentry : entry.body = []) (text : Bytes) (role : AnthropicRole) (blocks : List Json)
    (opening : Bool) :
    let alone := entry.ofAnthropic
      { messages := Groups.put [] role blocks, system := text, leading := opening }
    Joined (done.add .anthropicMessages alone) (Groups.put messages role blocks) ∧
      (done.add .anthropicMessages alone).system = withText done.system text := by
  by_cases hblocks : blocks = []
  · rw [hblocks]
    refine ⟨?_, add_system done _ _⟩
    have hadd : done.add .anthropicMessages
        (entry.ofAnthropic { messages := [], system := text, leading := opening }) =
          { done with system := withText done.system text } := if_pos hentry
    rw [Groups.put_nil, Groups.put_nil, hadd]
    exact h.withSystem _
  · have hput : Groups.put [] role blocks = [(role, blocks)] := if_neg (by simpa using hblocks)
    rw [hput]
    exact ⟨h.add hnumbers hblocks rfl rfl, add_system done _ _⟩

omit [DoubleText] in
/-- A round of the loop adds what it makes of its message alone. -/
theorem anthropicStep_alone (parse : Bytes → Option Json) (body : AnthropicBody)
    (message : Json) :
    (anthropicStep parse body message = none ∧
        anthropicStep parse { leading := body.leading } message = none) ∨
      ∃ text role blocks,
        anthropicStep parse { leading := body.leading } message =
            some
              { messages := Groups.put [] role blocks
                system := text
                leading := body.leading && !isConversationRole message } ∧
          anthropicStep parse body message =
            some
              { messages := Groups.put body.messages role blocks
                system := withText body.system text
                leading := body.leading && !isConversationRole message } := by
  have hnone : withText body.system [] = body.system := if_pos rfl
  by_cases hsystem : isSystemRole message = true
  · have hrole : isConversationRole message = false := Bool.eq_false_iff.mpr fun htrue => by
      rw [not_isSystemRole htrue] at hsystem
      cases hsystem
    rw [anthropicStep_system hsystem, anthropicStep_system hsystem, hrole, Bool.not_false,
      Bool.and_true]
    refine .inr ?_
    by_cases htext : systemText message = []
    · refine ⟨[], .user, [], ?_, ?_⟩
      · rw [if_pos htext]
        rfl
      · rw [if_pos htext, hnone]
        rfl
    · rw [if_neg htext, if_neg htext]
      by_cases hleading : body.leading = true
      · refine ⟨systemText message, .user, [], ?_, ?_⟩
        · rw [if_pos hleading]
          rfl
        · rw [if_pos hleading, withText, if_neg htext]
          rfl
      · refine ⟨[], .user, [textBlock (kHarnessNoteMarker ++ systemText message)], ?_, ?_⟩
        · rw [if_neg hleading]
          rfl
        · rw [if_neg hleading, hnone]
          rfl
  · have hother := Bool.eq_false_of_not_eq_true hsystem
    rw [anthropicStep_other hother, anthropicStep_other hother]
    rcases laterTurn parse message with - | ⟨role, blocks⟩
    · exact .inl ⟨rfl, rfl⟩
    · refine .inr ⟨[], role, blocks, rfl, ?_⟩
      rw [hnone]
      rfl

/-- The loop makes the text of what the other loop makes. -/
theorem encodeAll_anthropic (hnumbers : ∀ x : Double, DoubleText.toChars x ≠ [])
    {body : AnthropicBody} (hjoined : Joined done body.messages)
    (hsystem : done.system = body.system) :
    (encodeAll parse .anthropicMessages promptCacheControl [] sources body.leading done = none ∧
        sources.foldlM (anthropicStep parse) body = none) ∨
      ∃ kept text made,
        encodeAll parse .anthropicMessages promptCacheControl [] sources body.leading done =
            some (kept, text) ∧
          sources.foldlM (anthropicStep parse) body = some made ∧
            Joined text made.messages ∧ text.system = made.system := by
  induction sources generalizing body done with
  | nil => exact .inr ⟨[], done, body, rfl, rfl, hjoined, hsystem⟩
  | cons source sources ih =>
    rw [encodeAll_fresh, encodeMessage_anthropic, List.foldlM_cons]
    rcases anthropicStep_alone parse body source with ⟨hwhole, halone⟩ |
      ⟨text, role, blocks, halone, hwhole⟩
    · refine .inl ⟨?_, ?_⟩
      · rw [halone]
        rfl
      · rw [hwhole]
        rfl
    · have hadded := hjoined.addAlone hnumbers
        { source := source, valid := true, leading := body.leading } rfl text role blocks
        (body.leading && !isConversationRole source)
      rw [halone, hwhole, Option.map_some, Option.bind_some]
      have hnext := @ih _
        { messages := Groups.put body.messages role blocks
          system := withText body.system text
          leading := body.leading && !isConversationRole source }
        hadded.1 (hadded.2.trans (by rw [hsystem]))
      rcases hnext with ⟨hnone, hfold⟩ | ⟨kept, text', made, hsome, hfold, hjoined', hsystem'⟩
      · refine .inl ⟨?_, hfold⟩
        rw [hnone]
        rfl
      · rw [hsome]
        exact .inr ⟨_, text', made, rfl, hfold, hjoined', hsystem'⟩

/-- With nothing kept, the loop makes the text of what `EncodeWireRequest`
sends. -/
theorem encodeAll_eq (hnumbers : ∀ x : Double, DoubleText.toChars x ≠ []) (wireApi : WireApi)
    (request : WireRequest) (sources : List Json) :
    (encodeAll parse wireApi request.promptCacheControl [] sources true {}).map
        (fun made => (made.2.closed, made.2.system)) =
      (wireApi.encodeMessages parse request sources).map fun made =>
        (dump (.arr made.1), made.2) := by
  have hitems : ∀ items, ({} : EncodedText).text = openText items → wireApi ≠ .anthropicMessages →
      (encodeAll parse wireApi request.promptCacheControl [] sources true {}).map
          (fun made => (made.2.closed, made.2.system)) =
        some (dump (.arr (items ++ sources.flatMap (itemsOf wireApi request.promptCacheControl))),
          []) := by
    intro items htext hwire
    obtain ⟨kept, hkept⟩ := @encodeAll_items _ parse request.promptCacheControl true sources {}
      hnumbers wireApi hwire items htext
    rw [hkept, Option.map_some, closed_items rfl rfl]
  cases wireApi with
  | chatCompletions =>
    rw [hitems [] rfl (by decide), WireApi.encodeMessages, Option.map_some, List.nil_append,
      chatMessages, List.map_eq_flatMap]
    rfl
  | responses =>
    rw [hitems [] rfl (by decide), WireApi.encodeMessages, Option.map_some, List.nil_append]
    rfl
  | anthropicMessages =>
    rw [WireApi.encodeMessages, anthropicMessages]
    rcases @encodeAll_anthropic _ parse request.promptCacheControl sources {} hnumbers {}
        .start rfl with ⟨hnone, hfold⟩ | ⟨kept, text, made, hsome, hfold, hjoined, hsystem⟩
    · rw [hfold, hnone]
      rfl
    · rw [hfold, hsome, Option.map_some, hjoined.closed, hsystem]
      rfl

/-! ### The loop, with what is kept -/

theorem encodeMessage_eq_some {wireApi : WireApi} {entry : CachedMessage}
    (h : encodeMessage parse wireApi promptCacheControl leading source = some entry) :
    entry.source = source ∧ entry.leading = leading ∧ entry.valid = true := by
  have hmade : ∀ (made : AnthropicBody) (entry : CachedMessage),
      (entry.ofAnthropic made).source = entry.source ∧
        (entry.ofAnthropic made).leading = entry.leading ∧
          (entry.ofAnthropic made).valid = entry.valid := by
    intro made entry
    unfold CachedMessage.ofAnthropic
    split <;> exact ⟨rfl, rfl, rfl⟩
  by_cases hwire : wireApi = .anthropicMessages
  · rw [hwire, encodeMessage_anthropic, Option.map_eq_some_iff] at h
    obtain ⟨made, -, rfl⟩ := h
    exact hmade made _
  · rw [encodeMessage_items hwire] at h
    cases h
    exact ⟨rfl, rfl, rfl⟩

/-- Whether a route takes breakpoints matters to the message that is one. -/
theorem encodeMessage_breakpoint (wireApi : WireApi) (other : Bool)
    (h : source.contains kCacheBreakpointField = true → promptCacheControl = other) :
    encodeMessage parse wireApi promptCacheControl leading source =
      encodeMessage parse wireApi other leading source := by
  by_cases hbreakpoint : source.contains kCacheBreakpointField = true
  · rw [h hbreakpoint]
  · have hplain : ∀ flag, chatMessage flag source = chatMessage false source := fun flag => by
      unfold chatMessage
      rw [Bool.eq_false_iff.mpr hbreakpoint]
      rfl
    cases wireApi with
    | chatCompletions =>
      simp only [encodeMessage, chatMessages, List.map_cons, List.map_nil, hplain]
    | responses => rfl
    | anthropicMessages => rfl

/-- What is kept is as good as new where it is what its message gives. -/
theorem encodeAll_kept {wireApi : WireApi} {entries : List CachedMessage}
    (h : ∀ held ∈ entries, held.valid = true → ∀ source ∈ sources,
      held.source.eqv source = true →
        encodeMessage parse wireApi promptCacheControl held.leading source = some held) :
    encodeAll parse wireApi promptCacheControl entries sources leading done =
      encodeAll parse wireApi promptCacheControl [] sources leading done := by
  induction sources generalizing entries leading done with
  | nil => rfl
  | cons source sources ih =>
    have htail : ∀ held ∈ entries.tail, held.valid = true → ∀ source ∈ sources,
        held.source.eqv source = true →
          encodeMessage parse wireApi promptCacheControl held.leading source = some held :=
      fun held hheld hvalid source hsource =>
        h held (List.mem_of_mem_tail hheld) hvalid source (List.mem_cons_of_mem _ hsource)
    have hentry : (if !(entries.headD {}).valid || !(entries.headD {}).source.eqv source ||
          (entries.headD {}).leading ≠ leading then
        encodeMessage parse wireApi promptCacheControl leading source
      else some (entries.headD {})) =
        encodeMessage parse wireApi promptCacheControl leading source := by
      rcases entries with - | ⟨held, entries⟩
      · rfl
      · rw [List.headD_cons]
        split_ifs with hstale
        · rfl
        · simp only [Bool.or_eq_true, not_or, Bool.not_eq_true', Bool.not_eq_false,
            decide_eq_true_eq, not_not] at hstale
          obtain ⟨⟨hvalid, hsource⟩, hleading⟩ := hstale
          rw [← hleading]
          exact (h held List.mem_cons_self hvalid source List.mem_cons_self hsource).symm
    rw [encodeAll_fresh, encodeAll]
    dsimp only
    rw [hentry]
    congr 1
    funext entry
    rw [ih htail]

theorem mem_encodeAll {wireApi : WireApi} {kept : List CachedMessage} {text : EncodedText}
    (h : encodeAll parse wireApi promptCacheControl [] sources leading done = some (kept, text)) :
    ∀ entry ∈ kept, ∃ source ∈ sources, ∃ leading,
      encodeMessage parse wireApi promptCacheControl leading source = some entry := by
  induction sources generalizing leading done kept with
  | nil =>
    cases h
    exact fun entry hentry => absurd hentry List.not_mem_nil
  | cons source sources ih =>
    rw [encodeAll_fresh, Option.bind_eq_some_iff] at h
    obtain ⟨first, hfirst, hrest⟩ := h
    obtain ⟨⟨others, text'⟩, hothers, hkept⟩ := Option.map_eq_some_iff.mp hrest
    cases hkept
    intro entry hentry
    rcases List.mem_cons.mp hentry with rfl | hentry
    · exact ⟨source, List.mem_cons_self, leading, hfirst⟩
    · obtain ⟨other, hother, hmade⟩ := ih hothers entry hentry
      exact ⟨other, List.mem_cons_of_mem _ hother, hmade⟩

end Fresh

end UAgent
