/-
UAgent/Api/CachedPayloads.lean

The requests of a client, one after another (`Api::ChatPayload`,
src/api/wire_request.cc).  A kept text is used again when `operator==` finds
the message it was made from, and the tools' text when it finds their key;
the body is written with slots where they go.

Main result: `payloads_eq`.  Every request of a run is sent as it would be sent
without the texts that are kept, where `operator==` tells the values of the run
apart and no body spells the slot (`Steady`).
-/
import UAgent.Api.WireRequestCache

namespace UAgent

open Bytes Json

/-! ### Bodies -/

section Bodies

/-- The fields that stand as the slot. -/
def slotFields : List Bytes := [lit "messages", lit "input", lit "tools"]

theorem get?_setIf_ne (j : Json) (condition : Bool) (v : Json) {key other : Bytes}
    (h : other ≠ key) : (j.setIf condition key v).get? other = j.get? other := by
  unfold Json.setIf
  split_ifs
  · exact get?_set_ne j v h
  · rfl

theorem isObject_setIf {j : Json} (h : j.isObject = true) (condition : Bool) (key : Bytes)
    (v : Json) : (j.setIf condition key v).isObject = true := by
  unfold Json.setIf
  split_ifs
  · exact isObject_set h key v
  · exact h

/-- What is written around the slots leaves them alone. -/
structure Around (f : Json → Json) : Prop where
  object : ∀ body, body.isObject = true → (f body).isObject = true
  set : ∀ key ∈ slotFields, ∀ body v, f (body.set key v) = (f body).set key v
  get : ∀ key ∈ slotFields, ∀ body, (f body).get? key = body.get? key

theorem Around.comp {f g : Json → Json} (hf : Around f) (hg : Around g) :
    Around fun body => f (g body) where
  object body h := hf.object _ (hg.object _ h)
  set key hkey body v := by rw [hg.set key hkey, hf.set key hkey]
  get key hkey body := by rw [hf.get key hkey, hg.get key hkey]

theorem Around.id : Around fun body => body where
  object _ h := h
  set _ _ _ _ := rfl
  get _ _ _ := rfl

theorem Around.setIf {f : Json → Json} (hf : Around f) (condition : Bool) {key : Bytes}
    (hkey : key ∉ slotFields) (v : Json) : Around fun body => (f body).setIf condition key v where
  object body h := isObject_setIf (hf.object _ h) condition key v
  set slot hslot body w := by
    have hne : key ≠ slot := fun heq => hkey (heq ▸ hslot)
    rw [hf.set slot hslot, setIf_set _ _ hne]
  get slot hslot body := by
    have hne : slot ≠ key := fun heq => hkey (heq ▸ hslot)
    rw [get?_setIf_ne _ _ _ hne, hf.get slot hslot]

theorem Around.field {f : Json → Json} (hf : Around f) {key : Bytes} (hkey : key ∉ slotFields)
    (v : Json) : Around fun body => (f body).set key v :=
  hf.setIf true hkey v

theorem around_envelopeFields (wireApi : WireApi) (request : WireRequest) (offered : Bool) :
    Around (wireApi.envelopeFields request offered) := by
  have hstart := (Around.id.setIf
      (offered && request.forbidToolCalls && wireApi ≠ .anthropicMessages)
      (show lit "tool_choice" ∉ slotFields by decide) (.str (lit "none"))).setIf
    (offered && request.parallelTools && wireApi ≠ .anthropicMessages)
    (show lit "parallel_tool_calls" ∉ slotFields by decide) (.bool true)
  cases wireApi with
  | chatCompletions => exact hstart.setIf _ (by decide) _
  | responses =>
    exact (((hstart.field (by decide) _).field (by decide) _).setIf _ (by decide) _).setIf _
      (by decide) _
  | anthropicMessages =>
    exact (((hstart.field (by decide) _).field (by decide) _).setIf _ (by decide) _).setIf _
      (by decide) _

theorem around_completed (api : ApiSettings) (limits : SearchLimits) (messages : Json)
    (sessionId : Bytes) : Around (api.completed limits messages sessionId) := by
  unfold ApiSettings.completed
  cases api.wireApi with
  | anthropicMessages => exact .id
  | responses => exact Around.id.setIf _ (by decide) _
  | chatCompletions =>
    have hcap : (if Feature.maxCompletionTokens ∈ api.features then lit "max_completion_tokens"
        else lit "max_tokens") ∉ slotFields := by
      split_ifs <;> decide
    dsimp only
    refine Around.setIf (Around.setIf (Around.setIf ?_ _ (by decide) _) _ (by decide) _) _
      (by decide) _
    have hstart : ∀ (parser control : Bool) (plugins : Json) (limited : Bool) (cap : Json),
        Around fun body => ((body.setIf parser (lit "plugins") plugins).setIf control
          (lit "cache_control") cacheControl).setIf limited
            (if .maxCompletionTokens ∈ api.features then lit "max_completion_tokens"
              else lit "max_tokens") cap := fun parser control plugins limited cap =>
      ((Around.id.setIf _ (by decide) _).setIf _ (by decide) _).setIf _ hcap _
    by_cases hreasoning : Feature.reasoningObject ∈ api.features
    · simp only [if_pos hreasoning]
      exact (hstart _ _ _ _ _).setIf _ (by decide) _
    · simp only [if_neg hreasoning]
      exact (hstart _ _ _ _ _).setIf _ (by decide) _

/-! ### Slots of a body -/

theorem jsonValueStr_set {body : Json} (h : body.isObject = true) (key : Bytes) (s : Bytes) :
    jsonValueStr (body.set key (.str s)) key [] = s := by
  rw [jsonValueStr, get?_set h, if_pos rfl]

theorem jsonValueStr_set_ne (body v : Json) {key other : Bytes} (h : other ≠ key) :
    jsonValueStr (body.set key v) other [] = jsonValueStr body other [] := by
  rw [jsonValueStr, get?_set_ne body v h]
  rfl

/-- A body in which nothing stands for the messages or the tools yet. -/
structure Slotless (body : Json) : Prop where
  object : body.isObject = true
  none : ∀ key ∈ slotFields, body.get? key = .none

theorem Slotless.value {body : Json} (h : Slotless body) {key : Bytes} (hkey : key ∈ slotFields) :
    jsonValueStr body key [] = [] := by
  rw [jsonValueStr, h.none key hkey]

theorem apart_slotFields : ∀ key ∈ slotFields, Apart kEncodedSlot key := by decide

theorem messagesField_mem (wireApi : WireApi) : wireApi.messagesField ∈ slotFields := by
  cases wireApi <;> decide

variable {cache : WireRequestCache} {body : Json}

/-- A field that does not stand as the slot is passed over. -/
theorem fill_of_ne {payload field : Bytes} (h : jsonValueStr body field [] ≠ kEncodedSlot) :
    cache.fill body payload field = payload := if_pos h

theorem fill_of_slot {payload field : Bytes} (h : jsonValueStr body field [] = kEncodedSlot) :
    cache.fill body payload field =
      Json.fillSlot kEncodedSlot payload field
        (if field = lit "tools" then cache.encodedTools else cache.encodedMessages) :=
  if_neg (not_not_intro h)

variable [DoubleText]

/-- Of the fields the messages are sent in, one stands as the slot. -/
theorem serialize_eq (hactive : cache.active = true) (wireApi : WireApi)
    (hown : jsonValueStr body wireApi.messagesField [] = kEncodedSlot)
    (hother : ∀ field ∈ [lit "messages", lit "input"], field ≠ wireApi.messagesField →
      jsonValueStr body field [] ≠ kEncodedSlot) :
    cache.serialize body =
      cache.fill body
        (Json.fillSlot kEncodedSlot (dump body) wireApi.messagesField cache.encodedMessages)
        (lit "tools") := by
  have hactive : ¬cache.active = false := by simp [hactive]
  have hlast : wireApi.messagesField ≠ lit "tools" := by cases wireApi <;> decide
  have hfill := @fill_of_slot cache body (dump body) _ hown
  rw [if_neg hlast] at hfill
  rw [WireRequestCache.serialize, if_neg hactive, ← hfill]
  cases wireApi with
  | responses =>
    rw [List.foldl_cons, fill_of_ne (hother (lit "messages") (by decide) (by decide))]
    rfl
  | chatCompletions =>
    have hskip := hother (lit "input") (by decide) (by decide)
    rw [List.foldl_cons, List.foldl_cons, fill_of_ne hskip]
    rfl
  | anthropicMessages =>
    have hskip := hother (lit "input") (by decide) (by decide)
    rw [List.foldl_cons, List.foldl_cons, fill_of_ne hskip]
    rfl

/-- **A body without tools.** -/
theorem Slotless.serialize_one (h : Slotless body) (wireApi : WireApi)
    (hactive : cache.active = true) {messages : Json}
    (htext : cache.encodedMessages = dump messages)
    (hslot : ¬Json.quote kEncodedSlot <:+: dump (body.set wireApi.messagesField messages)) :
    cache.serialize (body.set wireApi.messagesField (.str kEncodedSlot)) =
      dump (body.set wireApi.messagesField messages) := by
  have hmem := messagesField_mem wireApi
  have hread : ∀ key ∈ slotFields, key ≠ wireApi.messagesField →
      jsonValueStr (body.set wireApi.messagesField (.str kEncodedSlot)) key [] ≠ kEncodedSlot := by
    intro key hkey hne
    rw [jsonValueStr_set_ne body _ hne, h.value hkey]
    decide
  rw [serialize_eq hactive wireApi (jsonValueStr_set h.object _ _) fun field hfield =>
      hread field (List.mem_of_mem_take (i := 2) hfield),
    fill_of_ne (hread _ (by decide) (by cases wireApi <;> decide)), htext]
  exact dump_fillSlot h.object (apart_slotFields _ hmem) (h.none _ hmem) hslot

/-- **A body with tools.** -/
theorem Slotless.serialize_two (h : Slotless body) (wireApi : WireApi)
    (hactive : cache.active = true) {messages tools : Json}
    (htext : cache.encodedMessages = dump messages) (htools : cache.encodedTools = dump tools)
    (hslot : ¬Json.quote kEncodedSlot <:+:
      dump ((body.set wireApi.messagesField messages).set (lit "tools") tools)) :
    cache.serialize
        ((body.set wireApi.messagesField (.str kEncodedSlot)).set (lit "tools")
          (.str kEncodedSlot)) =
      dump ((body.set wireApi.messagesField messages).set (lit "tools") tools) := by
  have hmem := messagesField_mem wireApi
  have hlast : wireApi.messagesField ≠ lit "tools" := by cases wireApi <;> decide
  have hless : wireApi.messagesField < lit "tools" := by cases wireApi <;> decide
  have hobject := isObject_set h.object wireApi.messagesField (.str kEncodedSlot)
  have hown : jsonValueStr ((body.set wireApi.messagesField (.str kEncodedSlot)).set (lit "tools")
      (.str kEncodedSlot)) wireApi.messagesField [] = kEncodedSlot := by
    rw [jsonValueStr_set_ne _ _ hlast, jsonValueStr_set h.object]
  rw [serialize_eq hactive wireApi hown, fill_of_slot (jsonValueStr_set hobject _ _), if_pos rfl,
    htext, htools]
  · exact dump_fillSlots h.object (apart_slotFields _ hmem) (apart_slotFields _ (by decide)) hless
      (h.none _ hmem) (h.none _ (by decide)) hslot
  · intro field hfield hne
    have htool : field ≠ lit "tools" := fun heq => absurd (heq ▸ hfield) (by decide)
    rw [jsonValueStr_set_ne _ _ htool, jsonValueStr_set_ne _ _ hne,
      h.value (List.mem_of_mem_take (i := 2) hfield)]
    decide

end Bodies

/-! ### Bodies of a call -/

section Calls

variable [DoubleText] {parse : Bytes → Option Json} {limits : SearchLimits}

/-- A body as `EncodeWireRequest` and `BuildRequestBody` write it. -/
def ChatCall.written (call : ChatCall) (limits : SearchLimits) (tools messages : Json)
    (system : Bytes) : Json :=
  call.api.completed limits call.messages call.sessionId
    (((call.api.wireApi.requestEnvelope call.request tools).set call.api.wireApi.messagesField
      messages).setIf (system ≠ []) (lit "system") (anthropicSystem system))

/-- It without the tools and the messages. -/
def ChatCall.rest (call : ChatCall) (limits : SearchLimits) (offered : Bool) (system : Bytes) :
    Json :=
  call.api.completed limits call.messages call.sessionId
    ((call.api.wireApi.envelopeFields call.request offered
      (.ofFields [(lit "model", .str call.request.model), (lit "stream", .bool true)])).setIf
        (system ≠ []) (lit "system") (anthropicSystem system))

omit [DoubleText] in
theorem ChatCall.around (call : ChatCall) (limits : SearchLimits) (system : Bytes) :
    Around fun body => call.api.completed limits call.messages call.sessionId
      (body.setIf (system ≠ []) (lit "system") (anthropicSystem system)) :=
  (around_completed call.api limits call.messages call.sessionId).comp
    (Around.id.setIf _ (by decide) _)

omit [DoubleText] in
theorem ChatCall.slotless (call : ChatCall) (limits : SearchLimits) (offered : Bool)
    (system : Bytes) : Slotless (call.rest limits offered system) := by
  have hstart : ∀ key ∈ slotFields, (Json.ofFields
      [(lit "model", .str call.request.model), (lit "stream", .bool true)]).get? key = none := by
    intro key hkey
    simp only [slotFields, List.mem_cons, List.not_mem_nil, or_false] at hkey
    rcases hkey with rfl | rfl | rfl <;> rfl
  have haround := (call.around limits system).comp
    (around_envelopeFields call.api.wireApi call.request offered)
  refine ⟨haround.object _ rfl, fun key hkey => ?_⟩
  rw [ChatCall.rest, haround.get key hkey]
  exact hstart key hkey

omit [DoubleText] in
theorem ChatCall.written_eq (call : ChatCall) (limits : SearchLimits) (tools messages : Json)
    (system : Bytes) :
    call.written limits tools messages system =
      if tools.isEmpty then
        (call.rest limits false system).set call.api.wireApi.messagesField messages
      else
        ((call.rest limits true system).set call.api.wireApi.messagesField messages).set
          (lit "tools") tools := by
  have hmem := messagesField_mem call.api.wireApi
  have hlast : call.api.wireApi.messagesField ≠ lit "tools" := by
    cases call.api.wireApi <;> decide
  have haround := call.around limits system
  have hfields := around_envelopeFields call.api.wireApi call.request
  rw [ChatCall.written, haround.set _ hmem, WireApi.requestEnvelope]
  split_ifs with hempty
  · rw [hempty]
    rfl
  · rw [Bool.eq_false_iff.mpr hempty]
    have htools : lit "tools" ∈ slotFields := by decide
    have hset := (haround.comp (hfields true)).set _ htools
      (.ofFields [(lit "model", .str call.request.model), (lit "stream", .bool true)]) tools
    exact (congrArg (Json.set · _ messages) hset).trans (set_comm _ hlast tools messages)

theorem dump_arr_eq_iff (hnumbers : ∀ x : Double, DoubleText.toChars x ≠ []) (items : List Json) :
    dump (.arr items) = lit "[]" ↔ items = [] := by
  rw [← arrayContents_eq_nil hnumbers, arrayContents_eq, dump_arr,
    show lit "[]" = ch '[' :: ([] ++ [ch ']']) from rfl, List.cons_inj_right,
    List.append_cancel_right_eq]

/-- **What is sent**, where the texts are those of the messages and the tools. -/
theorem ChatCall.serialize_written (call : ChatCall)
    (hnumbers : ∀ x : Double, DoubleText.toChars x ≠ []) {cache : WireRequestCache}
    (hactive : cache.active = true) {tools messages : List Json} {system : Bytes}
    (htext : cache.encodedMessages = dump (.arr messages))
    (htools : cache.encodedTools = dump (.arr tools))
    (hslot : ¬Json.quote kEncodedSlot <:+:
      dump (call.written limits (.arr tools) (.arr messages) system)) :
    cache.serialize
        (call.written limits
          (if cache.encodedTools = lit "[]" then .arr [] else .str kEncodedSlot)
          (.str kEncodedSlot) system) =
      dump (call.written limits (.arr tools) (.arr messages) system) := by
  have hslotless := call.slotless limits
  rw [ChatCall.written_eq] at hslot ⊢
  rw [ChatCall.written_eq]
  by_cases hnone : tools = []
  · have hempty : cache.encodedTools = lit "[]" :=
      htools.trans ((dump_arr_eq_iff hnumbers tools).mpr hnone)
    rw [hnone] at hslot ⊢
    rw [if_pos hempty]
    exact (hslotless false system).serialize_one _ hactive htext hslot
  · have hsome : cache.encodedTools ≠ lit "[]" := fun hempty =>
      hnone ((dump_arr_eq_iff hnumbers tools).mp (htools.symm.trans hempty))
    have hoffered : ¬(Json.arr tools).isEmpty = true := by simpa [Json.isEmpty] using hnone
    rw [if_neg hoffered] at hslot ⊢
    rw [if_neg hsome]
    exact (hslotless true system).serialize_two _ hactive htext htools hslot

/-! ### Runs -/

variable (parse limits) in
/-- Requests of one client: `operator==` tells their messages and their tools
apart, a breakpoint is sent where the same routes take it, and no body spells
the slot. -/
structure Steady (calls : List ChatCall) : Prop where
  messages : ∀ a ∈ calls, ∀ b ∈ calls, ∀ x ∈ a.messages.items, ∀ y ∈ b.messages.items,
    x.eqv y = true → x = y
  tools : ∀ a ∈ calls, ∀ b ∈ calls, a.request.toolKey.eqv b.request.toolKey = true →
    b.toolSchemas.eqv a.toolSchemas = true →
      a.api.hostedTools = b.api.hostedTools ∧ a.toolSchemas = b.toolSchemas
  breakpoints : ∀ a ∈ calls, ∀ b ∈ calls, ∀ x ∈ a.messages.items, x ∈ b.messages.items →
    x.contains kCacheBreakpointField = true →
      a.request.promptCacheControl = b.request.promptCacheControl
  unspelled : ∀ call ∈ calls, ∀ body, call.body parse limits = some body →
    ¬Json.quote kEncodedSlot <:+: dump body

variable (parse limits) in
/-- What is kept was made for requests of the run. -/
structure KeptOf (calls : List ChatCall) (cache : WireRequestCache) : Prop where
  messages : ∀ entry ∈ cache.messages, entry.valid = true →
    ∃ call ∈ calls, ∃ source ∈ call.messages.items, ∃ leading,
      encodeMessage parse cache.wireApi call.request.promptCacheControl leading source = some entry
  tools : cache.toolKey = .null ∨ ∃ call ∈ calls, cache.toolKey = call.request.toolKey ∧
    cache.schemas = call.toolSchemas ∧
      cache.encodedTools = dump (.arr (requestTools limits cache.wireApi call.request))

variable {calls : List ChatCall} {call : ChatCall} {cache : WireRequestCache}

theorem KeptOf.empty : KeptOf parse limits calls {} where
  messages _ h := absurd h List.not_mem_nil
  tools := .inl rfl

theorem KeptOf.onWire (h : KeptOf parse limits calls cache) (wireApi : WireApi) :
    KeptOf parse limits calls (cache.onWire wireApi) ∧
      (cache.onWire wireApi).wireApi = wireApi := by
  unfold WireRequestCache.onWire
  split_ifs with hsame
  · exact ⟨h, hsame⟩
  · exact ⟨⟨fun _ hentry => absurd hentry List.not_mem_nil, .inl rfl⟩, rfl⟩

/-- A text that is used again is that of the message. -/
theorem KeptOf.entry (h : KeptOf parse limits calls cache) (hsteady : Steady parse limits calls)
    (hcall : call ∈ calls) {held : CachedMessage} (hheld : held ∈ cache.messages)
    (hvalid : held.valid = true) {source : Json} (hsource : source ∈ call.messages.items)
    (hsame : held.source.eqv source = true) :
    encodeMessage parse cache.wireApi call.request.promptCacheControl held.leading source =
      some held := by
  obtain ⟨other, hother, made, hmade, leading, hentry⟩ := h.messages held hheld hvalid
  obtain ⟨hfrom, hleading, -⟩ := encodeMessage_eq_some hentry
  have heq : made = source :=
    hsteady.messages other hother call hcall made hmade source hsource (hfrom ▸ hsame)
  rw [heq] at hmade hentry
  rw [hleading, ← hentry]
  exact encodeMessage_breakpoint _ _
    (hsteady.breakpoints call hcall other hother source hsource hmade)

omit [DoubleText] in
theorem requestTools_congr {wireApi : WireApi} {a b : WireRequest}
    (hnative : a.nativeWebSearch = b.nativeWebSearch) (hhosted : a.hostedTools = b.hostedTools)
    (hschemas : a.toolSchemas = b.toolSchemas) :
    requestTools limits wireApi a = requestTools limits wireApi b := by
  unfold requestTools
  rw [hnative, hhosted, hschemas]

/-- The tools' text is that of the request. -/
theorem KeptOf.withTools (h : KeptOf parse limits calls cache)
    (hsteady : Steady parse limits calls) (hcall : call ∈ calls) :
    (cache.withTools limits cache.wireApi call.request).encodedTools =
        dump (.arr (requestTools limits cache.wireApi call.request)) ∧
      KeptOf parse limits calls (cache.withTools limits cache.wireApi call.request) := by
  unfold WireRequestCache.withTools
  split_ifs with hstale
  · exact ⟨rfl, h.messages, .inr ⟨call, hcall, rfl, rfl, rfl⟩⟩
  · simp only [Bool.or_eq_true, not_or, Bool.not_eq_true', Bool.not_eq_false] at hstale
    obtain ⟨hkey, hschemas⟩ := hstale
    refine ⟨?_, h⟩
    rcases h.tools with hnull | ⟨other, hother, hothers, hotherschemas, htext⟩
    · rw [hnull] at hkey
      cases hkey
    · rw [hothers] at hkey
      rw [hotherschemas] at hschemas
      obtain ⟨hhosted, hsame⟩ := hsteady.tools call hcall other hother hkey hschemas
      have hnative : call.request.nativeWebSearch = other.request.nativeWebSearch := by
        have hboth : (decide (call.request.nativeWebSearch = other.request.nativeWebSearch) &&
          eqvItems [.arr call.request.hostedTools] [.arr other.request.hostedTools]) = true := hkey
        rw [Bool.and_eq_true, decide_eq_true_eq] at hboth
        exact hboth.1
      rw [htext, requestTools_congr hnative hhosted hsame]

theorem stored_eq (limits : SearchLimits) (cache : WireRequestCache) (wireApi : WireApi)
    (request : WireRequest) (messages : List CachedMessage) (done : EncodedText) :
    (cache.stored limits wireApi request messages done).active = true ∧
      (cache.stored limits wireApi request messages done).encodedMessages = done.closed := by
  unfold WireRequestCache.stored WireRequestCache.withTools
  split_ifs <;> exact ⟨rfl, rfl⟩

omit [DoubleText] in
/-- The body of messages in an array. -/
theorem ChatCall.body_arr {sources : List Json} (h : call.messages = .arr sources) :
    call.body parse limits =
      (call.api.wireApi.encodeMessages parse call.request sources).map fun made =>
        call.written limits (.arr (requestTools limits call.api.wireApi call.request))
          (.arr made.1) made.2 := by
  have hrequest : (call.api.wireRequest call.messages call.toolSchemas).messages = .arr sources := h
  rw [ChatCall.body, ApiSettings.buildRequestBody, WireApi.encodeWireRequest]
  simp only [hrequest, Option.map_map]
  rfl

/-- What is sent of them with a cache. -/
theorem ChatCall.chatPayload_arr {sources : List Json} (h : call.messages = .arr sources)
    (cache : WireRequestCache) :
    call.chatPayload parse limits cache =
      (encodeAll parse call.api.wireApi call.request.promptCacheControl
          (cache.onWire call.api.wireApi).messages sources true {}).map fun made =>
        let next := (cache.onWire call.api.wireApi).stored limits call.api.wireApi call.request
          made.1 made.2
        (next, next.serialize (call.written limits
          (if next.encodedTools = lit "[]" then .arr [] else .str kEncodedSlot)
          (.str kEncodedSlot) made.2.system)) := by
  have hrequest : call.request.messages = .arr sources := h
  rw [ChatCall.chatPayload, WireRequestCache.encode]
  simp only [hrequest, Option.map_map]
  rfl

/-- Messages that are no array are sent as they are. -/
theorem ChatCall.chatPayload_other (h : ∀ sources, call.messages ≠ .arr sources)
    (cache : WireRequestCache) :
    ∃ body, call.body parse limits = some body ∧
      call.chatPayload parse limits cache = some ({ cache with active := false }, dump body) := by
  have hrequest : ∀ sources,
      (call.api.wireRequest call.messages call.toolSchemas).messages ≠ .arr sources := h
  have hwire : ∃ body, call.api.wireApi.encodeWireRequest parse limits
      (call.api.wireRequest call.messages call.toolSchemas) = some body := by
    unfold WireApi.encodeWireRequest
    dsimp only
    split
    · rename_i sources hsources
      exact absurd hsources (hrequest sources)
    · exact ⟨_, rfl⟩
  obtain ⟨body, hbody⟩ := hwire
  refine ⟨call.api.completed limits call.messages call.sessionId body, ?_, ?_⟩
  · rw [ChatCall.body, ApiSettings.buildRequestBody, hbody]
    rfl
  · have hencode : cache.encode parse limits call.api.wireApi call.request =
        some ({ cache with active := false }, body) := by
      unfold WireRequestCache.encode
      split
      · rename_i sources hsources
        exact absurd hsources (hrequest sources)
      · rw [ChatCall.request, hbody]
        rfl
    rw [ChatCall.chatPayload, hencode]
    rfl

/-- A request is sent as it would be without a cache, and what is kept then
serves the next. -/
theorem ChatCall.chatPayload_step (hnumbers : ∀ x : Double, DoubleText.toChars x ≠ [])
    (hsteady : Steady parse limits calls) (hcall : call ∈ calls)
    (hkept : KeptOf parse limits calls cache) :
    (call.chatPayload parse limits cache = none ∧ call.body parse limits = none) ∨
      ∃ next body, call.chatPayload parse limits cache = some (next, dump body) ∧
        call.body parse limits = some body ∧ KeptOf parse limits calls next := by
  have hunspelled := hsteady.unspelled call hcall
  obtain ⟨hwire, hsame⟩ := hkept.onWire call.api.wireApi
  by_cases harray : ∃ sources, call.messages = .arr sources
  · obtain ⟨sources, hmessages⟩ := harray
    have hitems : call.messages.items = sources := by rw [hmessages]; rfl
    have hgood : ∀ held ∈ (cache.onWire call.api.wireApi).messages, held.valid = true →
        ∀ source ∈ sources, held.source.eqv source = true →
          encodeMessage parse call.api.wireApi call.request.promptCacheControl held.leading source =
            some held := by
      intro held hheld hvalid source hsource heqv
      rw [← hsame]
      exact hwire.entry hsteady hcall hheld hvalid (hitems.symm ▸ hsource) heqv
    have hloop : (encodeAll parse call.api.wireApi call.request.promptCacheControl [] sources true
          {}).map (fun made => (made.2.closed, made.2.system)) =
        (call.api.wireApi.encodeMessages parse call.request sources).map fun made =>
          (dump (.arr made.1), made.2) := encodeAll_eq hnumbers _ _ _
    rw [ChatCall.chatPayload_arr hmessages, encodeAll_kept hgood, ChatCall.body_arr hmessages]
    rw [ChatCall.body_arr hmessages] at hunspelled
    rcases hmade : encodeAll parse call.api.wireApi call.request.promptCacheControl [] sources true
      {} with - | ⟨kept, text⟩
    · rw [hmade, Option.map_none, eq_comm, Option.map_eq_none_iff] at hloop
      rw [hloop]
      exact .inl ⟨rfl, rfl⟩
    · rw [hmade, Option.map_some, eq_comm, Option.map_eq_some_iff] at hloop
      obtain ⟨⟨messages, system⟩, hencoded, hpair⟩ := hloop
      obtain ⟨htext, hsystem⟩ := Prod.mk.inj hpair
      obtain rfl : text.system = system := hsystem.symm
      rw [hencoded] at hunspelled ⊢
      have hstored : KeptOf parse limits calls
          { cache.onWire call.api.wireApi with
            messages := kept, active := true, encodedMessages := text.closed } := by
        refine ⟨fun entry hentry _ => ?_, hwire.tools⟩
        obtain ⟨source, hsource, leading, hfrom⟩ := mem_encodeAll hmade entry hentry
        refine ⟨call, hcall, source, hitems.symm ▸ hsource, leading, ?_⟩
        rw [← hfrom]
        exact congrArg (encodeMessage parse · _ _ _) hsame
      obtain ⟨htools, hnext⟩ := hstored.withTools hsteady hcall
      rw [show ({ cache.onWire call.api.wireApi with
            messages := kept, active := true, encodedMessages := text.closed } :
          WireRequestCache).wireApi = call.api.wireApi from hsame] at htools hnext
      obtain ⟨hactive, htexts⟩ := stored_eq limits (cache.onWire call.api.wireApi) call.api.wireApi
        call.request kept text
      refine .inr ⟨_, _, ?_, rfl, hnext⟩
      have hsent := call.serialize_written hnumbers hactive (htexts.trans htext.symm) htools
        (hunspelled _ rfl)
      exact congrArg (fun sent => some (_, sent)) hsent
  · obtain ⟨body, hbody, hpayload⟩ :=
      @ChatCall.chatPayload_other _ parse limits call (not_exists.mp harray) cache
    exact .inr ⟨_, body, hpayload, hbody, hkept.messages, hkept.tools⟩

/-- **Every request of a run is sent as it would be sent without a cache**,
over whatever wires and routes the client goes, and throws where that does. -/
theorem payloads_eq (hnumbers : ∀ x : Double, DoubleText.toChars x ≠ [])
    (hsteady : Steady parse limits calls) :
    payloads parse limits {} calls =
      calls.mapM fun call => (call.body parse limits).map dump := by
  have hrun : ∀ done : List ChatCall, (∀ call ∈ done, call ∈ calls) → ∀ cache,
      KeptOf parse limits calls cache →
        payloads parse limits cache done =
          done.mapM fun call => (call.body parse limits).map dump := by
    intro done
    induction done with
    | nil => exact fun _ _ _ => rfl
    | cons call done ih =>
      intro hmem cache hkept
      have hrest := ih fun other hother => hmem other (List.mem_cons_of_mem _ hother)
      rw [payloads, List.mapM_cons]
      rcases call.chatPayload_step hnumbers hsteady (hmem call List.mem_cons_self) hkept with
        ⟨hnone, hbody⟩ | ⟨next, body, hsent, hbody, hnext⟩
      · rw [hnone, hbody]
        rfl
      · rw [hsent, hbody, Option.bind_some]
        show (payloads parse limits next done).map (dump body :: ·) = _
        rw [hrest next hnext]
        generalize (done.mapM fun call => (call.body parse limits).map dump) = others
        cases others <;> rfl
  exact hrun calls (fun _ h => h) {} .empty

end Calls

/-! ### A growing conversation -/

def exampleCall (messages : List Json) : ChatCall where
  api := { wireApi := .anthropicMessages, model := lit "m" }
  messages := .arr messages
  toolSchemas := .arr []

def exampleCalls : List ChatCall :=
  [exampleCall [roleMessage (lit "user") (.str (lit "hi"))],
    exampleCall [roleMessage (lit "user") (.str (lit "hi")),
      roleMessage (lit "assistant") (.str (lit "yes"))]]

theorem unspelled_of_plain {text : Bytes} (h : ch '\\' ∉ text) :
    ¬Json.quote kEncodedSlot <:+: text := fun hin =>
  h (hin.subset (by decide))

/-- The second request is sent with the text that is kept of the first. -/
theorem payloads_eq_example :
    letI := bitsText
    payloads (fun _ => none) ⟨5, 5⟩ {} exampleCalls =
        exampleCalls.mapM fun call => (call.body (fun _ => none) ⟨5, 5⟩).map dump := by
  let _ := bitsText
  refine payloads_eq ?_ ⟨by decide, by decide, by decide, ?_⟩
  · exact fun x => List.append_ne_nil_of_right_ne_nil _ (by decide)
  · intro call hcall body hbody
    rcases List.mem_cons.mp hcall with rfl | hcall
    · cases hbody
      exact unspelled_of_plain (by decide)
    · cases List.mem_singleton.mp hcall
      cases hbody
      exact unspelled_of_plain (by decide)

end UAgent
