/-
UAgent/Agent/DeltaReplay.lean

What becomes of a reply while its deltas arrive in any order, more than once
or not at all, and while checkpoints of earlier views are restored.

A delta is a piece of the reply's text `T` and its offset (`IsPiece`).  The
node of the reply holds the start of `T`, and a delta adds the bytes of its
piece that follow on them (`deltaAdds_prefix`), so that it is the length held
alone that says what a delta does.  A node whose first text takes the view past
its bounds is dropped with the oldest nodes, and its text starts over.
-/
import UAgent.Agent.ViewReducer
import UAgent.Base.Run

namespace UAgent

open Bytes

/-! ### A reply in a view -/

/-- The node of a reply, or of its thinking. -/
def replyId (answer : Bool) (responseId : Bytes) : Bytes :=
  if answer then responseId else thinkingId responseId

def streams (node : Json) : Bool := jsonValueBool node (lit "streaming")

/-- The text streamed into a node. -/
def streamText (answer : Bool) (node : Json) : Bytes :=
  field (streamBody answer node) (lit "text")

/-- The text of a reply; nothing when the view has no node of it. -/
def replyText (answer : Bool) (responseId : Bytes) (nodes : List Json) : Option Bytes :=
  (findNode nodes (replyId answer responseId)).map fun cut => streamText answer cut.2.1

/-- A delta of the reply `responseId`, whose text is `T`. -/
structure IsPiece (answer : Bool) (responseId T : Bytes) (data : Json) : Prop where
  id : jsonValueStr data (lit "response_id") [] = responseId
  carries : data.contains (lit "offset") = true
  text : ∃ n, jsonStringRef data (lit "text") =
    some ((T.drop (jsonValueUint64 data (lit "offset") 0)).take n)
  reset : resets answer data = false

/-- All of a delta's text is held. -/
def Covered (data : Json) (text : Bytes) : Prop :=
  data.contains (lit "offset") = true ∧
    jsonValueUint64 data (lit "offset") 0 +
      ((jsonStringRef data (lit "text")).getD []).length ≤ text.length

/-! ### What a delta adds -/

/-- A delta that is held adds nothing. -/
theorem deltaAdds_of_covered {data : Json} {text : Bytes} (h : Covered data text) :
    deltaAdds data text = [] := by
  obtain ⟨hcarries, hlength⟩ := h
  unfold deltaAdds
  dsimp only
  rw [if_pos hcarries, if_neg (by omega), Nat.min_eq_left (by omega)]
  split_ifs
  · rfl
  · exact List.drop_length

/-- A piece adds what follows on the text that is held. -/
theorem deltaAdds_prefix {answer : Bool} {responseId T text : Bytes} {data : Json}
    (h : IsPiece answer responseId T data) (htext : text <+: T) :
    text ++ deltaAdds data text <+: T := by
  obtain ⟨n, hsent⟩ := h.text
  unfold deltaAdds
  rw [hsent, Option.getD_some]
  dsimp only
  rw [if_pos h.carries]
  generalize jsonValueUint64 data (lit "offset") 0 = offset
  split_ifs with hgap hconflict
  · rwa [List.append_nil]
  · rwa [List.append_nil]
  · obtain ⟨rest, rfl⟩ := htext
    refine (List.prefix_append_right_inj text).mpr ?_
    -- the piece goes on where the text ends
    have hdrop : ((text ++ rest).drop offset).take n =
        (text.drop offset ++ rest).take n := by
      rw [List.drop_append_of_le_length (Nat.le_of_not_lt hgap)]
    rw [hdrop]
    by_cases hmore : text.length - offset ≤ n
    · rw [List.take_append, List.take_of_length_le (by rw [List.length_drop]; exact hmore)]
      rw [Nat.min_eq_right (by rw [List.length_append, List.length_drop]; omega),
        List.drop_append_of_le_length (by rw [List.length_drop]),
        List.drop_of_length_le (by rw [List.length_drop]), List.nil_append]
      exact List.take_prefix _ _
    · rw [Nat.min_eq_left (by rw [List.length_take]; omega), List.drop_length]
      exact List.nil_prefix

/-! ### The node of a reply -/

section Node

variable {answer : Bool} {responseId T : Bytes} {node found : Json}

/-- What a text member reads to depends on the member. -/
theorem field_of_get? {node : Json} {key text : Bytes} (h : node.get? key = some (.str text)) :
    field node key = text := by
  rw [field, jsonStringRef, h]
  rfl

/-- A body that can be streamed into stays as it is. -/
theorem streamBody_spec (answer : Bool) (node : Json) :
    (streamBody answer node).isObject ∧
      (streamBody answer node).get? (lit "text") = some (.str (streamText answer node)) := by
  have hnew : ∀ kind : Bytes, (Json.ofFields [(lit "kind", .str kind),
      (lit "text", .str [])]).get? (lit "text") = some (.str []) := fun _ => rfl
  have hfield : ∀ body : Json, (∃ text, body.get? (lit "text") = some (.str text)) →
      body.isObject ∧ body.get? (lit "text") = some (.str (field body (lit "text"))) := by
    rintro body ⟨text, htext⟩
    exact ⟨Json.isObject_of_get? htext, by rw [htext, field_of_get? htext]⟩
  refine hfield _ ?_
  unfold streamBody
  split
  · rename_i body _
    by_cases htext : (jsonStringRef body (lit "text")).isSome
    · rw [if_pos htext]
      obtain ⟨text, href⟩ := Option.isSome_iff_exists.mp htext
      rw [jsonStringRef] at href
      split at href
      · exact ⟨_, by assumption⟩
      · cases href
    · rw [if_neg htext]
      exact ⟨[], hnew _⟩
  · exact ⟨[], hnew _⟩

theorem isObject_of_streams (h : streams node = true) : node.isObject := by
  cases node with
  | obj fields => rfl
  | _ => cases h

theorem get?_set_body (hnode : node.isObject) (body : Json) {key : Bytes}
    (hkey : key ≠ lit "body") : (node.set (lit "body") body).get? key = node.get? key := by
  rw [Json.get?_set hnode, if_neg hkey]

theorem idOf_set_body (hnode : node.isObject) (body : Json) :
    idOf (node.set (lit "body") body) = idOf node := by
  have hkey : lit "id" ≠ lit "body" := by decide
  rw [idOf, idOf, field, field, jsonStringRef, jsonStringRef, get?_set_body hnode body hkey]

/-- The text of a node is the one of its body. -/
theorem streamText_of_body {body : Json} {text : Bytes}
    (hbody : node.get? (lit "body") = some body) (htext : body.get? (lit "text") = some (.str text)) :
    streamText answer node = text := by
  have hheld : jsonObject node (lit "body") = some body := by
    rw [jsonObject, hbody]
    cases body <;> first | rfl | cases htext
  have hsent : (jsonStringRef body (lit "text")).isSome := by
    rw [jsonStringRef, htext]
    rfl
  rw [streamText, streamBody, hheld]
  dsimp only
  rw [if_pos hsent, field_of_get? htext]

/-- A node that stops streaming keeps its text. -/
theorem streamText_erase (answer : Bool) (node : Json) :
    streamText answer (node.erase (lit "streaming")) = streamText answer node := by
  have hkey : lit "body" ≠ lit "streaming" := by decide
  rw [streamText, streamText, streamBody, streamBody, jsonObject, jsonObject, Json.get?_erase,
    if_neg hkey]

/-- A reply that is finished stops streaming, and nothing else. -/
theorem set_streaming_spec (answer : Bool) (hnode : node.isObject) :
    idOf (node.set (lit "streaming") (.bool false)) = idOf node ∧
      streams (node.set (lit "streaming") (.bool false)) = false ∧
        streamText answer (node.set (lit "streaming") (.bool false)) = streamText answer node := by
  have hkeys : lit "id" ≠ lit "streaming" ∧ lit "body" ≠ lit "streaming" := by decide
  refine ⟨?_, ?_, ?_⟩
  · rw [idOf, idOf, field, field, jsonStringRef, jsonStringRef, Json.get?_set hnode,
      if_neg hkeys.1]
  · rw [streams, jsonValueBool, Json.get?_set hnode, if_pos rfl]
  · rw [streamText, streamText, streamBody, streamBody, jsonObject, jsonObject,
      Json.get?_set hnode, if_neg hkeys.2]

theorem streamText_set_body (hnode : node.isObject) {body : Json} {text : Bytes}
    (htext : body.get? (lit "text") = some (.str text)) :
    streamText answer (node.set (lit "body") body) = text :=
  streamText_of_body (by rw [Json.get?_set hnode, if_pos rfl]) htext

/-- The node with its text grown. -/
theorem streamText_grown (answer : Bool) (hnode : node.isObject) (grown : Bytes) :
    streamText answer
      (node.set (lit "body") ((streamBody answer node).set (lit "text") (.str grown))) = grown := by
  refine streamText_set_body hnode ?_
  rw [Json.get?_set (streamBody_spec answer node).1, if_pos rfl]

theorem get?_makeNode {id parent kind key : Bytes} {fields : Json} (hfields : fields.isObject)
    (hkey : key ≠ lit "parent" ∧ key ≠ lit "kind") :
    (makeNode id parent kind fields).get? key =
      if key = lit "id" then some (.str id) else fields.get? key := by
  have h₁ := Json.isObject_set hfields (lit "id") (.str id)
  have h₂ := Json.isObject_set h₁ (lit "parent") (parentJson parent)
  rw [makeNode, Json.get?_set h₂, if_neg hkey.2, Json.get?_set h₁, if_neg hkey.1,
    Json.get?_set hfields]

theorem keyed_makeNode {id parent kind : Bytes} {fields : Json} (hfields : Json.Keyed fields) :
    Json.Keyed (makeNode id parent kind fields) := ((hfields.set _ _).set _ _).set _ _

/-- A reply's first delta makes a node of it. -/
theorem newReply_eq (answer : Bool) (data : Json) (responseId : Bytes) :
    ∃ parent kind fields,
      newReply answer data responseId = makeNode (replyId answer responseId) parent kind fields ∧
        Json.Keyed fields ∧ fields.get? (lit "body") = none ∧
          fields.get? (lit "streaming") = some (.bool true) := by
  cases answer with
  | true => exact ⟨_, _, _, rfl, Json.keyed_ofFields _, rfl, rfl⟩
  | false => exact ⟨_, _, _, rfl, (Json.keyed_ofFields _).set _ _, rfl, rfl⟩

/-- The new node streams and holds no text. -/
theorem newReply_spec (answer : Bool) (data : Json) (responseId : Bytes) :
    Json.Keyed (newReply answer data responseId) ∧
      idOf (newReply answer data responseId) = replyId answer responseId ∧
        streams (newReply answer data responseId) = true ∧
          streamText answer (newReply answer data responseId) = [] := by
  obtain ⟨parent, kind, fields, heq, hkeyed, hbody, hstreams⟩ :=
    newReply_eq answer data responseId
  rw [heq]
  refine ⟨keyed_makeNode hkeyed, field_of_get? ?_, ?_, ?_⟩
  · rw [get?_makeNode hkeyed.isObject (by decide), if_pos rfl]
  · have hkey : lit "streaming" ≠ lit "id" := by decide
    rw [streams, jsonValueBool, get?_makeNode hkeyed.isObject (by decide), if_neg hkey, hstreams]
  · have hkey : lit "body" ≠ lit "id" := by decide
    rw [streamText, streamBody, jsonObject, get?_makeNode hkeyed.isObject (by decide),
      if_neg hkey, hbody]
    rfl

/-- A node merged with itself: a saved one no longer streams. -/
theorem mergeNode_self (hnode : Json.Keyed node) :
    mergeNode node node = if node.contains (lit "sequence") then node.erase (lit "streaming")
      else node := by
  have hkeeps : keepsBody node node = none := by
    unfold keepsBody
    split
    · rename_i held sent hheld hsent
      obtain rfl : held = sent := Option.some.inj (hheld.symm.trans hsent)
      exact if_neg fun h => lt_irrefl _ h.2.2
    · rfl
  rw [mergeNode, hkeeps, Json.update_self hnode]

/-- What is merged into a node has its id, or the node's. -/
theorem idOf_mergeNode {other : Json} (hother : Json.Keyed other) {id : Bytes}
    (hid : other.get? (lit "id") = some (.str id)) :
    idOf (mergeNode found other) = idOf found ∨ idOf (mergeNode found other) = id := by
  have hkeys : lit "id" ≠ lit "body" ∧ lit "id" ≠ lit "streaming" := by decide
  have hupdate := Json.get?_update found hother hid
  generalize hmerged : found.update other = merged at hupdate
  have herase : (if other.contains (lit "sequence") then merged.erase (lit "streaming")
      else merged).get? (lit "id") = merged.get? (lit "id") := by
    split_ifs
    · rw [Json.get?_erase, if_neg hkeys.2]
    · rfl
  have hget : (mergeNode found other).get? (lit "id") = merged.get? (lit "id") := by
    rw [mergeNode, hmerged]
    split
    · rename_i body _
      rw [← herase]
      generalize (if other.contains (lit "sequence") then merged.erase (lit "streaming")
        else merged) = shown
      cases shown with
      | obj fields => exact Assoc.lookup_insert_ne hkeys.1 _ _
      | null => exact Assoc.lookup_insert_ne hkeys.1 _ []
      | _ => rfl
    · exact herase
  rcases hupdate with hupdate | hupdate
  · refine .inl ?_
    rw [idOf, idOf, field, field, jsonStringRef, jsonStringRef, hget, hupdate]
  · exact .inr (field_of_get? (hget.trans hupdate))

end Node

/-! ### The nodes with one id -/

/-- The nodes with this id. -/
def nodesOf (id : Bytes) (nodes : List Json) : List Json := nodes.filter fun node => idOf node = id

section NodesOf

variable {id : Bytes} {nodes pre post : List Json} {node found : Json}

@[simp] theorem nodesOf_nil : nodesOf id [] = [] := rfl

@[simp] theorem nodesOf_append : nodesOf id (pre ++ post) = nodesOf id pre ++ nodesOf id post :=
  List.filter_append ..

theorem nodesOf_cons_self (h : idOf node = id) :
    nodesOf id (node :: nodes) = node :: nodesOf id nodes :=
  List.filter_cons_of_pos (by simpa using h)

theorem nodesOf_cons_ne (h : idOf node ≠ id) : nodesOf id (node :: nodes) = nodesOf id nodes :=
  List.filter_cons_of_neg (by simpa using h)

theorem nodesOf_eq_nil : nodesOf id nodes = [] ↔ ∀ node ∈ nodes, idOf node ≠ id := by
  simp [nodesOf, List.filter_eq_nil_iff]

theorem mem_nodesOf : node ∈ nodesOf id nodes ↔ node ∈ nodes ∧ idOf node = id := by
  simp [nodesOf]

/-- A node is found where it stands first. -/
theorem findNode_eq_some : findNode nodes id = some (pre, found, post) ↔
    nodes = pre ++ found :: post ∧ idOf found = id ∧ nodesOf id pre = [] := by
  rw [findNode, List.firstMatch_eq_some, nodesOf_eq_nil]
  simp

theorem findNode_eq_none : findNode nodes id = none ↔ nodesOf id nodes = [] := by
  rw [findNode, List.firstMatch_eq_none, nodesOf_eq_nil]
  simp

/-- The text of a reply is the one of its first node. -/
theorem replyText_eq (answer : Bool) (responseId : Bytes) (nodes : List Json) :
    replyText answer responseId nodes =
      (nodesOf (replyId answer responseId) nodes).head?.map (streamText answer) := by
  rw [replyText]
  rcases hfind : findNode nodes (replyId answer responseId) with - | ⟨pre, found, post⟩
  · rw [findNode_eq_none.mp hfind]
    rfl
  · obtain ⟨rfl, hid, hpre⟩ := findNode_eq_some.mp hfind
    rw [nodesOf_append, hpre, nodesOf_cons_self hid]
    rfl

/-- A node of another id is placed among those of this one. -/
theorem nodesOf_upsert_ne {other : Json} (hother : Json.Keyed other) {otherId : Bytes}
    (hid : other.get? (lit "id") = some (.str otherId)) (hne : otherId ≠ id) :
    nodesOf id (upsert nodes other).1 = nodesOf id nodes := by
  have hidOf : idOf other = otherId := field_of_get? hid
  rw [upsert]
  rcases hfind : findNode nodes (idOf other) with - | ⟨pre, found, post⟩
  · show nodesOf id (List.placeBefore _ other nodes) = _
    rw [List.placeBefore, nodesOf_append, nodesOf_cons_ne (hidOf ▸ hne), ← nodesOf_append,
      List.takeWhile_append_dropWhile]
  · obtain ⟨rfl, hfound, -⟩ := findNode_eq_some.mp hfind
    have hfoundNe : idOf found ≠ id := fun h => hne (by rw [← h, hfound, hidOf])
    have hmerged : idOf (mergeNode found other) ≠ id := by
      rcases idOf_mergeNode hother hid with h | h
      · rwa [h]
      · rwa [h]
    rw [nodesOf_append, nodesOf_append, nodesOf_cons_ne hmerged, nodesOf_cons_ne hfoundNe]

/-- The node that is there is placed once more. -/
theorem nodesOf_upsert_self (hnode : Json.Keyed node) (hid : idOf node = id)
    (honly : nodesOf id nodes = [node]) :
    nodesOf id (upsert nodes node).1 = [mergeNode node node] := by
  rw [upsert, hid]
  rcases hfind : findNode nodes id with - | ⟨pre, found, post⟩
  · rw [findNode_eq_none.mp hfind] at honly
    cases honly
  · obtain ⟨rfl, hfound, hpre⟩ := findNode_eq_some.mp hfind
    rw [nodesOf_append, hpre, nodesOf_cons_self hfound, List.nil_append] at honly
    obtain ⟨rfl, hpost⟩ := List.cons.inj honly
    have hmerged : idOf (mergeNode found found) = id := by
      rw [mergeNode_self hnode]
      split_ifs
      · have hkey : lit "id" ≠ lit "streaming" := by decide
        rw [← hid, idOf, idOf, field, field, jsonStringRef, jsonStringRef, Json.get?_erase,
          if_neg hkey]
      · exact hid
    rw [nodesOf_append, hpre, nodesOf_cons_self hmerged, hpost]
    rfl

theorem keyed_workNode (message : Bytes) : Json.Keyed (workNode message) :=
  keyed_makeNode (Json.keyed_ofFields _)

theorem id_workNode (message : Bytes) :
    (workNode message).get? (lit "id") = some (.str (workId message)) := by
  rw [workNode, get?_makeNode (Json.keyed_ofFields _).isObject (by decide), if_pos rfl]

/-- A node that is shown is not the work made for it. -/
theorem nodesOf_change_upsert (hnode : Json.Keyed node) (hid : idOf node = id) (hne : id ≠ [])
    (honly : nodesOf id nodes = [node]) (changed : List Bytes) (patches : List NodePatch) :
    nodesOf id (Change.upsert ⟨nodes, changed, patches⟩ node).nodes = [mergeNode node node] := by
  have hplaced := nodesOf_upsert_self hnode hid honly
  by_cases hwork : (lit "w-").isPrefixOf (field node (lit "parent")) ∧
      findNode (upsert nodes node).1 (field node (lit "parent")) = none
  · obtain ⟨hstarts, hnone⟩ := hwork
    rw [Change.upsert, if_pos ⟨hstarts, hnone⟩, ← hplaced]
    refine nodesOf_upsert_ne (keyed_workNode _) (id_workNode _) ?_
    -- the work has no node yet, and the node itself has
    rw [findNode_eq_none] at hnone
    obtain ⟨rest, hrest⟩ := List.isPrefixOf_iff_prefix.mp hstarts
    have hlen : (lit "w-").length = 2 := by decide
    rw [← hrest, List.drop_left' hlen, workId]
    split_ifs
    · exact hne.symm
    · rw [hrest]
      rintro heq
      rw [heq, hplaced] at hnone
      cases hnone
  · rw [Change.upsert, if_neg hwork]
    exact hplaced

end NodesOf

/-! ### A delta on a view -/

/-- At most one node is the reply's, and while it streams it holds the start
of the text. -/
structure Held (answer : Bool) (responseId T : Bytes) (nodes : List Json) : Prop where
  one : (nodesOf (replyId answer responseId) nodes).length ≤ 1
  keyed : ∀ node ∈ nodesOf (replyId answer responseId) nodes, Json.Keyed node
  text : ∀ node ∈ nodesOf (replyId answer responseId) nodes, streams node = true →
    streamText answer node <+: T

/-- The nodes a delta leaves, before the view is bounded. -/
def DeltaOutcome.nodes : DeltaOutcome → List Json
  | .early nodes _ => nodes
  | .whole change => change.nodes

section Delta

variable {answer : Bool} {responseId T : Bytes} {nodes : List Json} {data : Json}

theorem Held.sublist {left : List Json} (h : Held answer responseId T nodes)
    (hleft : left.Sublist nodes) : Held answer responseId T left := by
  have hsub : (nodesOf (replyId answer responseId) left).Sublist
      (nodesOf (replyId answer responseId) nodes) := hleft.filter _
  exact ⟨hsub.length_le.trans h.one, fun node hnode => h.keyed node (hsub.subset hnode),
    fun node hnode => h.text node (hsub.subset hnode)⟩

theorem Held.of_singleton {node : Json} (honly : nodesOf (replyId answer responseId) nodes = [node])
    (hkeyed : Json.Keyed node) (htext : streams node = true → streamText answer node <+: T) :
    Held answer responseId T nodes := by
  refine ⟨by rw [honly]; rfl, fun other hother => ?_, fun other hother => ?_⟩
  · rw [honly, List.mem_singleton] at hother
    exact hother ▸ hkeyed
  · rw [honly, List.mem_singleton] at hother
    exact hother ▸ htext

theorem replyId_ne_nil (hid : responseId ≠ []) : replyId answer responseId ≠ [] := by
  rw [replyId, thinkingId]
  split_ifs
  · exact hid
  · exact fun h => hid (List.append_eq_nil_iff.mp h).1

/-- The node a delta is for: the one that is held, or a new one. -/
theorem deltaNode_spec (h : Held answer responseId T nodes) (data : Json) :
    ∃ pre found post, deltaNode answer nodes data responseId = (pre, found, post) ∧
      idOf found = replyId answer responseId ∧
      nodesOf (replyId answer responseId) (pre ++ found :: post) = [found] ∧
      Json.Keyed found ∧ (streams found = true → streamText answer found <+: T) ∧
      ((nodes = pre ++ found :: post ∧
          replyText answer responseId nodes = some (streamText answer found)) ∨
        (streams found = true ∧ streamText answer found = [] ∧
          replyText answer responseId nodes = none)) := by
  obtain ⟨hkeyed, hid, hstreams, htext⟩ := newReply_spec answer data responseId
  have hdelta : deltaNode answer nodes data responseId =
      (findNode nodes (replyId answer responseId)).getD
        (nodes, newReply answer data responseId, []) := rfl
  rcases hfind : findNode nodes (replyId answer responseId) with - | ⟨pre, found, post⟩
  · rw [hfind] at hdelta
    refine ⟨_, _, _, hdelta, hid, ?_, hkeyed, fun _ => ?_, .inr ⟨hstreams, htext, ?_⟩⟩
    · rw [nodesOf_append, findNode_eq_none.mp hfind, nodesOf_cons_self hid]
      rfl
    · rw [htext]
      exact List.nil_prefix
    · rw [replyText, hfind]
      rfl
  · rw [hfind] at hdelta
    obtain ⟨rfl, hfound, hpre⟩ := findNode_eq_some.mp hfind
    have hone := h.one
    rw [nodesOf_append, hpre, nodesOf_cons_self hfound, List.nil_append, List.length_cons] at hone
    have honly : nodesOf (replyId answer responseId) (pre ++ found :: post) = [found] := by
      rw [nodesOf_append, hpre, nodesOf_cons_self hfound,
        List.length_eq_zero_iff.mp (Nat.le_zero.mp (Nat.le_of_succ_le_succ hone))]
      rfl
    have hmem : found ∈ nodesOf (replyId answer responseId) (pre ++ found :: post) := by
      rw [honly]
      exact List.mem_singleton_self _
    refine ⟨pre, found, post, hdelta, hfound, honly, h.keyed _ hmem, h.text _ hmem, .inl ⟨rfl, ?_⟩⟩
    rw [replyText, hfind]
    rfl

/-- What becomes of the reply's node: the text it held is the start of the
text it holds now. -/
structure Grows (answer : Bool) (responseId T : Bytes) (nodes left : List Json) : Prop where
  held : Held answer responseId T left
  grows : ∀ t ∈ replyText answer responseId nodes, ∀ t' ∈ replyText answer responseId left, t <+: t'

/-- The node that is left says it all. -/
theorem Grows.of_node {left : List Json} {node : Json}
    (honly : nodesOf (replyId answer responseId) left = [node]) (hkeyed : Json.Keyed node)
    (htext : streams node = true → streamText answer node <+: T)
    (hgrows : ∀ t ∈ replyText answer responseId nodes, t <+: streamText answer node) :
    Grows answer responseId T nodes left := by
  refine ⟨.of_singleton honly hkeyed htext, fun t ht t' ht' => ?_⟩
  rw [replyText_eq, honly] at ht'
  obtain rfl := Option.some.inj ht'
  exact hgrows t ht

/-- A view that is bounded loses nodes and changes none. -/
theorem Grows.sublist {left bounded : List Json} (h : Grows answer responseId T nodes left)
    (hbounded : bounded.Sublist left) : Grows answer responseId T nodes bounded := by
  have htext : ∀ t ∈ replyText answer responseId bounded, t ∈ replyText answer responseId left := by
    intro t ht
    rw [replyText_eq] at ht ⊢
    have hsub : (nodesOf (replyId answer responseId) bounded).Sublist
        (nodesOf (replyId answer responseId) left) := hbounded.filter _
    have hone := h.held.one
    rcases hleft : nodesOf (replyId answer responseId) left with - | ⟨node, rest⟩
    · rw [hleft, List.sublist_nil] at hsub
      rw [hsub] at ht
      exact ht
    · obtain rfl : rest = [] := by
        rw [hleft, List.length_cons] at hone
        exact List.length_eq_zero_iff.mp (Nat.le_zero.mp (Nat.le_of_succ_le_succ hone))
      rw [hleft] at hsub
      rcases List.sublist_singleton.mp hsub with hnone | hnode
      · rw [hnone] at ht
        cases ht
      · rwa [hnode] at ht
  exact ⟨h.held.sublist hbounded, fun t ht t' ht' => h.grows t ht t' (htext t' ht')⟩

/-- What a delta leaves before the view is bounded. -/
theorem applyDelta_grows (hid : responseId ≠ []) (hpiece : IsPiece answer responseId T data)
    (h : Held answer responseId T nodes) :
    Grows answer responseId T nodes (applyDelta answer nodes data).nodes := by
  obtain ⟨pre, found, post, hdelta, hfound, honly, hkeyed, hstarts, hbefore⟩ :=
    deltaNode_spec h data
  obtain ⟨hbody, hbodyText⟩ := streamBody_spec answer found
  have hpre : nodesOf (replyId answer responseId) pre = [] ∧
      nodesOf (replyId answer responseId) post = [] := by
    rw [nodesOf_append, nodesOf_cons_self hfound] at honly
    rcases hcase : nodesOf (replyId answer responseId) pre with - | ⟨other, rest⟩
    · rw [hcase] at honly
      exact ⟨rfl, (List.cons.inj honly).2⟩
    · rw [hcase] at honly
      exact absurd (congrArg List.length honly) (by simp)
  -- the node with a body in the place of its own
  have hset : ∀ body, nodesOf (replyId answer responseId)
      (pre ++ found.set (lit "body") body :: post) = [found.set (lit "body") body] := by
    intro body
    rw [nodesOf_append, hpre.1, nodesOf_cons_self ((idOf_set_body hkeyed.isObject body).trans hfound),
      hpre.2]
    rfl
  have hheld : ∀ t ∈ replyText answer responseId nodes, t = streamText answer found := by
    rintro t ht
    rcases hbefore with ⟨-, hsome⟩ | ⟨-, -, hnone⟩
    · rw [hsome] at ht
      exact (Option.some.inj ht).symm
    · rw [hnone] at ht
      cases ht
  unfold applyDelta
  simp only [hpiece.id, hpiece.reset, hdelta]
  rw [if_neg hid]
  by_cases hstreams : streams found = true
  · have htext := hstarts hstreams
    rw [if_neg (by rw [show jsonValueBool found (lit "streaming") = true from hstreams]; simp)]
    have hadds := deltaAdds_prefix hpiece htext
    by_cases hnone : deltaAdds data (streamText answer found) = []
    · -- nothing is added
      have hsame : streamText answer (found.set (lit "body") (streamBody answer found)) =
          streamText answer found := streamText_set_body hkeyed.isObject hbodyText
      rw [if_pos ⟨rfl, hnone⟩]
      refine .of_node (hset _) (hkeyed.set _ _) (fun _ => hsame.symm ▸ htext) fun t ht => ?_
      rw [hsame, hheld t ht]
    · rw [if_neg fun hnothing => hnone hnothing.2, if_neg Bool.false_ne_true]
      have hgrown := streamText_grown answer hkeyed.isObject
        (streamText answer found ++ deltaAdds data (streamText answer found))
      have hof : ∀ left node, nodesOf (replyId answer responseId) left = [node] →
          Json.Keyed node → streamText answer node =
            streamText answer found ++ deltaAdds data (streamText answer found) →
              Grows answer responseId T nodes left := by
        intro left node hleft hnode hnodeText
        refine .of_node hleft hnode (fun _ => hnodeText ▸ hadds) fun t ht => ?_
        rw [hnodeText, hheld t ht]
        exact List.prefix_append _ _
      generalize (if answer = true then responseId else thinkingId responseId) = shownId
      split_ifs
      · exact hof _ _ (hset _) (hkeyed.set _ _) hgrown
      · exact hof _ _ (hset _) (hkeyed.set _ _) hgrown
      · -- the node is shown: a saved one stops streaming
        refine hof _ _ (nodesOf_change_upsert (hkeyed.set _ _)
          ((idOf_set_body hkeyed.isObject _).trans hfound) (replyId_ne_nil hid) (hset _) _ _) ?_ ?_
        · rw [mergeNode_self (hkeyed.set _ _)]
          split_ifs
          · exact (hkeyed.set _ _).erase _
          · exact hkeyed.set _ _
        · rw [mergeNode_self (hkeyed.set _ _)]
          split_ifs
          · exact (streamText_erase answer _).trans hgrown
          · exact hgrown
  · -- the reply is finished
    have hfinished : (!jsonValueBool found (lit "streaming")) = true := by
      have hnot : jsonValueBool found (lit "streaming") = false := Bool.eq_false_iff.mpr hstreams
      rw [hnot]
      rfl
    rw [if_pos hfinished]
    refine .of_node honly hkeyed (fun h => absurd h hstreams) fun t ht => ?_
    rw [hheld t ht]

/-- No delta changes a node that no longer streams. -/
theorem applyDelta_finished (hresponse : jsonValueStr data (lit "response_id") [] = responseId)
    {pre post : List Json} {found : Json}
    (hfind : findNode nodes (replyId answer responseId) = some (pre, found, post))
    (hfinished : streams found = false) : applyDelta answer nodes data = .early nodes [] := by
  obtain ⟨rfl, -⟩ := findNode_eq_some.mp hfind
  have hdelta : deltaNode answer (pre ++ found :: post) data responseId = (pre, found, post) := by
    show (findNode _ (replyId answer responseId)).getD _ = _
    rw [hfind]
    rfl
  have hstops : (!jsonValueBool found (lit "streaming")) = true := by
    have hnot : jsonValueBool found (lit "streaming") = false := hfinished
    rw [hnot]
    rfl
  unfold applyDelta
  simp only [hresponse, hdelta]
  rw [if_pos hstops]
  exact ite_self _

/-- A delta that is held leaves the text, and no patch goes out. -/
theorem applyDelta_covered (hid : responseId ≠ []) (hpiece : IsPiece answer responseId T data)
    {t : Bytes} (ht : replyText answer responseId nodes = some t) (hcovered : Covered data t) :
    ∃ left, applyDelta answer nodes data = .early left [] ∧
      replyText answer responseId left = some t := by
  obtain ⟨⟨pre, found, post⟩, hfind, rfl⟩ := Option.map_eq_some_iff.mp ht
  obtain ⟨rfl, hfound, hpre⟩ := findNode_eq_some.mp hfind
  have hdelta : deltaNode answer (pre ++ found :: post) data responseId = (pre, found, post) := by
    show (findNode _ (replyId answer responseId)).getD _ = _
    rw [hfind]
    rfl
  have hobject : found.isObject := by
    have hne : idOf found ≠ [] := hfound ▸ replyId_ne_nil hid
    cases found with
    | obj fields => rfl
    | _ => exact absurd rfl hne
  by_cases hstreams : streams found = true
  · unfold applyDelta
    simp only [hpiece.id, hpiece.reset, hdelta]
    rw [if_neg hid]
    have hgoes : ¬(!jsonValueBool found (lit "streaming")) = true := by
      rw [show jsonValueBool found (lit "streaming") = true from hstreams]
      exact Bool.false_ne_true
    rw [if_neg hgoes, if_pos ⟨rfl, deltaAdds_of_covered hcovered⟩]
    refine ⟨_, rfl, ?_⟩
    have hset := (idOf_set_body hobject (streamBody answer found)).trans hfound
    rw [replyText_eq, nodesOf_append, hpre, nodesOf_cons_self hset]
    exact congrArg some (streamText_set_body hobject (streamBody_spec answer found).2)
  · exact ⟨_, applyDelta_finished hpiece.id hfind (Bool.eq_false_iff.mpr hstreams), ht⟩

end Delta

/-! ### Runs -/

/-- A client's view, and the views it may be set back to. -/
structure ReplayState where
  view : View
  checkpoints : List View := []

inductive ReplayEvent
  | delta (data : Json)
  /-- `response.finished`. -/
  | finished (data : Json)
  /-- A checkpoint is restored. -/
  | restore (view : View)

namespace ReplayState

/-- The event of a delta. -/
def deltaEvent (answer : Bool) (data : Json) : ViewEvent :=
  if answer then .answerDelta data else .reasoningDelta data

def step (answer : Bool) (s : ReplayState) : ReplayEvent → ReplayState
  | .delta data =>
    ⟨(applySessionEvent s.view (deltaEvent answer data)).1, s.view :: s.checkpoints⟩
  | .finished data =>
    ⟨(applySessionEvent s.view (.responseFinished data)).1, s.view :: s.checkpoints⟩
  | .restore view => ⟨view, s.view :: s.checkpoints⟩

/-- The deltas are the reply's, and a checkpoint is a view that was held. -/
def Allowed (answer : Bool) (responseId T : Bytes) (s : ReplayState) : ReplayEvent → Prop
  | .delta data => IsPiece answer responseId T data
  | .finished _ => True
  | .restore view => view ∈ s.checkpoints

end ReplayState

section Runs

variable {answer : Bool} {responseId T : Bytes} {view : View} {data : Json} {s : ReplayState}

theorem applySessionEvent_delta (view : View) (data : Json) :
    applySessionEvent view (ReplayState.deltaEvent answer data) = view.applyDelta answer data := by
  cases answer <;> rfl

theorem boundView_sublist (view : View) : (boundView view).nodes.Sublist view.nodes :=
  List.drop_sublist _ _

theorem applyDelta_sublist (view : View) (data : Json) :
    (view.applyDelta answer data).1.nodes.Sublist (applyDelta answer view.nodes data).nodes := by
  rw [View.applyDelta]
  rcases applyDelta answer view.nodes data with ⟨nodes, patches⟩ | change
  · exact List.Sublist.refl _
  · exact boundView_sublist _

/-- Only the reply's own nodes count. -/
theorem Grows.congr {nodes left other : List Json} (h : Grows answer responseId T nodes left)
    (hother : nodesOf (replyId answer responseId) other =
      nodesOf (replyId answer responseId) left) : Grows answer responseId T nodes other := by
  refine ⟨⟨by rw [hother]; exact h.held.one, by rw [hother]; exact h.held.keyed,
    by rw [hother]; exact h.held.text⟩, ?_⟩
  rw [replyText_eq answer responseId other, hother, ← replyText_eq]
  exact h.grows

/-- A reply that is finished keeps its text, or leaves. -/
theorem finishReply_grows {nodes : List Json} (change : Change) (id : Bytes)
    (h : Grows answer responseId T nodes change.nodes) :
    Grows answer responseId T nodes (finishReply change id).nodes := by
  rw [finishReply]
  rcases hfind : findNode change.nodes id with - | ⟨pre, found, post⟩
  · exact h
  · dsimp only
    obtain ⟨hnodes, hfound, hpre⟩ := findNode_eq_some.mp hfind
    by_cases hstreams : streams found = true
    · rw [if_neg (by rw [show jsonValueBool found (lit "streaming") = true from hstreams]; simp)]
      split_ifs
      · refine h.sublist ?_
        rw [hnodes]
        exact (List.sublist_cons_self found post).append_left pre
      · have hobject : found.isObject := isObject_of_streams hstreams
        obtain ⟨hset, hstops, htext⟩ := set_streaming_spec answer hobject
        by_cases hid : id = replyId answer responseId
        · subst hid
          have hmem : found ∈ nodesOf (replyId answer responseId) change.nodes := by
            rw [hnodes]
            exact mem_nodesOf.mpr ⟨List.mem_append_right _ List.mem_cons_self, hfound⟩
          have hpost : nodesOf (replyId answer responseId) post = [] := by
            have hone := h.held.one
            rw [hnodes, nodesOf_append, hpre, nodesOf_cons_self hfound, List.nil_append,
              List.length_cons] at hone
            exact List.length_eq_zero_iff.mp (Nat.le_zero.mp (Nat.le_of_succ_le_succ hone))
          have honly : nodesOf (replyId answer responseId)
              (pre ++ found.set (lit "streaming") (.bool false) :: post) =
                [found.set (lit "streaming") (.bool false)] := by
            rw [nodesOf_append, hpre, nodesOf_cons_self (hset.trans hfound), hpost]
            rfl
          refine .of_node honly ((h.held.keyed found hmem).set _ _)
            (fun hs => absurd (hstops ▸ hs) Bool.false_ne_true) fun t ht => ?_
          rw [htext]
          refine h.grows t ht _ ?_
          rw [replyText, hfind]
          rfl
        · refine h.congr ?_
          rw [hnodes, nodesOf_append, nodesOf_append, nodesOf_cons_ne (by rw [hset, hfound]; exact hid),
            nodesOf_cons_ne (by rw [hfound]; exact hid)]
    · rw [if_pos (by rw [show jsonValueBool found (lit "streaming") = false from
        Bool.eq_false_iff.mpr hstreams]; rfl)]
      exact h

/-- A view that is left as it is. -/
theorem Grows.refl {nodes : List Json} (h : Held answer responseId T nodes) :
    Grows answer responseId T nodes nodes := by
  refine ⟨h, fun t ht t' ht' => ?_⟩
  obtain rfl := Option.some.inj (ht.symm.trans ht')
  exact List.prefix_rfl

/-- Every event but a restored checkpoint lets the reply's text grow. -/
theorem step_grows (hid : responseId ≠ []) (h : Held answer responseId T s.view.nodes)
    {e : ReplayEvent} (hallowed : s.Allowed answer responseId T e)
    (hrestore : ∀ view, e ≠ .restore view) :
    Grows answer responseId T s.view.nodes (s.step answer e).view.nodes := by
  cases e with
  | delta data =>
    show Grows answer responseId T s.view.nodes (applySessionEvent s.view _).1.nodes
    rw [applySessionEvent_delta]
    exact (applyDelta_grows hid hallowed h).sublist (applyDelta_sublist _ _)
  | finished data =>
    refine Grows.sublist ?_ (boundView_sublist _)
    exact finishReply_grows _ _ (finishReply_grows _ _ (Grows.refl h))
  | restore view => exact absurd rfl (hrestore view)

/-- Every view of a run holds the start of the reply's text. -/
theorem held_of_run (hid : responseId ≠ []) (hview : Held answer responseId T view.nodes)
    (h : Run (ReplayState.step answer) (ReplayState.Allowed answer responseId T) ⟨view, []⟩ s) :
    Held answer responseId T s.view.nodes := by
  have hall : Held answer responseId T s.view.nodes ∧
      ∀ old ∈ s.checkpoints, Held answer responseId T old.nodes := by
    refine h.invariant (I := fun s => Held answer responseId T s.view.nodes ∧
      ∀ old ∈ s.checkpoints, Held answer responseId T old.nodes) ⟨hview, by simp⟩ ?_
    rintro s e ⟨hheld, hold⟩ hallowed
    refine ⟨?_, ?_⟩
    · cases e with
      | restore view => exact hold view hallowed
      | delta data => exact (step_grows hid hheld hallowed fun _ h => nomatch h).held
      | finished data => exact (step_grows hid hheld hallowed fun _ h => nomatch h).held
    · have hkept : (s.step answer e).checkpoints = s.view :: s.checkpoints := by cases e <;> rfl
      rw [hkept]
      exact List.forall_mem_cons.mpr ⟨hheld, hold⟩
  exact hall.1

/-- **Deltas that are replayed.**  In every run of a reply's deltas, its end
and restored checkpoints, the reply's node streams a start of the text; an
event other than a restored checkpoint lets the text of a node that stays grow
only; a delta that is held leaves the node and its text; and no delta changes
a view whose node no longer streams. -/
theorem delta_replay (hid : responseId ≠ []) (hview : Held answer responseId T view.nodes)
    (h : Run (ReplayState.step answer) (ReplayState.Allowed answer responseId T) ⟨view, []⟩ s) :
    (∀ node ∈ s.view.nodes, idOf node = replyId answer responseId → streams node = true →
        streamText answer node <+: T) ∧
      (∀ e, s.Allowed answer responseId T e → (∀ checkpoint, e ≠ .restore checkpoint) →
        ∀ t ∈ replyText answer responseId s.view.nodes,
          ∀ t' ∈ replyText answer responseId (s.step answer e).view.nodes, t <+: t') ∧
      (∀ data, IsPiece answer responseId T data →
        ∀ t ∈ replyText answer responseId s.view.nodes, Covered data t →
          replyText answer responseId (s.step answer (.delta data)).view.nodes = some t) ∧
      ∀ data, jsonValueStr data (lit "response_id") [] = responseId →
        ∀ cut ∈ findNode s.view.nodes (replyId answer responseId), streams cut.2.1 = false →
          applySessionEvent s.view (ReplayState.deltaEvent answer data) = (s.view, []) := by
  have hheld := held_of_run hid hview h
  refine ⟨fun node hnode hnodeId => ?_, fun e hallowed hrestore => ?_, fun data hpiece t ht hcovered => ?_,
    fun data hresponse cut hcut hfinished => ?_⟩
  · exact hheld.text node (mem_nodesOf.mpr ⟨hnode, hnodeId⟩)
  · exact (step_grows hid hheld hallowed hrestore).grows
  · obtain ⟨left, hleft, htext⟩ := applyDelta_covered hid hpiece ht hcovered
    show replyText answer responseId (applySessionEvent s.view _).1.nodes = some t
    rw [applySessionEvent_delta, View.applyDelta, hleft]
    exact htext
  · obtain ⟨pre, found, post⟩ := cut
    rw [applySessionEvent_delta, View.applyDelta, applyDelta_finished hresponse hcut hfinished]

end Runs

/-- A delta of the answer `r`. -/
def answerPiece (offset : UInt64) (text : Bytes) : Json :=
  .ofFields [(lit "response_id", .str (lit "r")), (lit "offset", .uint offset),
    (lit "text", .str text)]

/-- The run of one delta from a view without nodes, and its repetition. -/
theorem delta_replay_twice :
    replyText true (lit "r") (((⟨{ nodes := [] }, []⟩ : ReplayState).step true
      (.delta (answerPiece 0 (lit "ha")))).step true (.delta (answerPiece 0 (lit "ha")))).view.nodes =
        some (lit "ha") := by
  have hid : lit "r" ≠ [] := by decide
  have hpiece : IsPiece true (lit "r") (lit "haha") (answerPiece 0 (lit "ha")) :=
    ⟨rfl, rfl, ⟨2, by decide⟩, rfl⟩
  have hview : Held true (lit "r") (lit "haha") ({ nodes := [] } : View).nodes :=
    ⟨Nat.zero_le _, by simp, by simp⟩
  have hrun : Run (ReplayState.step true) (ReplayState.Allowed true (lit "r") (lit "haha"))
      ⟨{ nodes := [] }, []⟩ ((⟨{ nodes := [] }, []⟩ : ReplayState).step true
        (.delta (answerPiece 0 (lit "ha")))) := Run.next _ Run.start hpiece
  have hcovered : Covered (answerPiece 0 (lit "ha")) (lit "ha") := ⟨rfl, by decide⟩
  exact (delta_replay hid hview hrun).2.2.1 _ hpiece (lit "ha") (by decide) hcovered

/-! ### A reply whose text starts over -/

/-- The views of a client, from one without nodes. -/
def replayed (pieces : List Json) : View :=
  pieces.foldl (fun view data => (applySessionEvent view (.answerDelta data)).1) { nodes := [] }

theorem replayed_concat (pieces : List Json) (data : Json) :
    replayed (pieces ++ [data]) = (applySessionEvent (replayed pieces) (.answerDelta data)).1 :=
  List.foldl_append

/-- The node of the answer `r` that holds a text. -/
def answerNode (text : Bytes) : Json :=
  .ofFields [(lit "body", .ofFields [(lit "kind", .str (lit "markdown")), (lit "text", .str text)]),
    (lit "id", .str (lit "r")), (lit "kind", .str (lit "message")), (lit "parent", .null),
    (lit "role", .str (lit "assistant")), (lit "streaming", .bool true)]

/-- A node past the view's bounds alone is dropped. -/
theorem boundView_single {node : Json} (h : kViewBytes < jsonEstimatedBytes (.arr [node]))
    (view : View) : (boundView { view with nodes := [node] }).nodes = [] := by
  have hover : overBounds (jsonEstimatedBytes (.arr [node])) [node] = 1 := by
    rw [overBounds, if_pos (.inr h)]
    rfl
  show [node].drop (boundDrop [node]) = []
  rw [boundDrop, hover]
  rfl

/-- A node that is shown as a whole is shown in a view that is bounded. -/
theorem applyDelta_whole {view : View} {data : Json} {change : Change}
    (h : applyDelta true view.nodes data = .whole change) :
    (applySessionEvent view (.answerDelta data)).1 =
      boundView { view with nodes := change.nodes } := by
  rw [applySessionEvent, View.applyDelta, h]
  rfl

/-- The first text of an answer that has shown nothing brings out its node. -/
theorem applyDelta_first (rest : Bytes) :
    applyDelta true [answerNode (lit "\n\n")] (answerPiece 2 (0x61 :: rest)) =
      .whole (Change.upsert ⟨[answerNode (lit "\n\n" ++ 0x61 :: rest)], [lit "r"], []⟩
        (answerNode (lit "\n\n" ++ 0x61 :: rest))) := by
  have hid : jsonValueStr (answerPiece 2 (0x61 :: rest)) (lit "response_id") [] = lit "r" := rfl
  have hnode : deltaNode true [answerNode (lit "\n\n")] (answerPiece 2 (0x61 :: rest)) (lit "r") =
      ([], answerNode (lit "\n\n"), []) := rfl
  have htext : field (streamBody true (answerNode (lit "\n\n"))) (lit "text") = lit "\n\n" := rfl
  have hreset : resets true (answerPiece 2 (0x61 :: rest)) = false := rfl
  have hstreams : jsonValueBool (answerNode (lit "\n\n")) (lit "streaming") = true := rfl
  have hadds : deltaAdds (answerPiece 2 (0x61 :: rest)) (lit "\n\n") = 0x61 :: rest := rfl
  have hset : ∀ text, (answerNode (lit "\n\n")).set (lit "body")
      ((streamBody true (answerNode (lit "\n\n"))).set (lit "text") (.str text)) =
        answerNode text := fun _ => rfl
  have hblank : blank (lit "\n\n") = true := rfl
  unfold applyDelta
  simp only [hid, hnode, htext, hreset, hstreams, hadds, hset, hblank]
  rfl

theorem nodes_upsert_answerNode (text : Bytes) :
    (Change.upsert ⟨[answerNode text], [lit "r"], []⟩ (answerNode text)).nodes =
      [answerNode text] := by
  rw [Change.upsert]
  rfl

/-- An answer whose node is gone has what it is sent next. -/
theorem replyText_again {view : View} (h : view.nodes = []) :
    replyText true (lit "r") (applySessionEvent view
      (.answerDelta (answerPiece 0 (lit "\n")))).1.nodes = some (lit "\n") := by
  obtain ⟨nodes, more, before⟩ := view
  obtain rfl : nodes = [] := h
  rfl

/-- A text of the size of the view's bounds is past them. -/
theorem bytes_answerNode {text : Bytes} (h : text.length = kViewBytes) :
    kViewBytes < jsonEstimatedBytes (.arr [answerNode text]) := by
  show kViewBytes < jsonEstimatedBytes (.arr [.obj [
    (lit "body", .obj [(lit "kind", .str (lit "markdown")), (lit "text", .str text)]),
    (lit "id", .str (lit "r")), (lit "kind", .str (lit "message")), (lit "parent", .null),
    (lit "role", .str (lit "assistant")), (lit "streaming", .bool true)]])
  simp only [jsonEstimatedBytes, estimatedItems, estimatedFields, h]
  decide

/-- **A text starts over.**  Two blank bytes are held; the bytes that follow
take the view past its bounds with the first node it shows, which goes; the
first byte, sent again, is then all the reply has. -/
theorem reply_starts_over :
    ∃ T first second again, IsPiece true (lit "r") T first ∧ IsPiece true (lit "r") T second ∧
      IsPiece true (lit "r") T again ∧
        replyText true (lit "r") (replayed [first]).nodes = some (lit "\n\n") ∧
          replyText true (lit "r") (replayed [first, second, again]).nodes = some (lit "\n") := by
  obtain ⟨rest, hrest⟩ : ∃ rest : Bytes, rest.length = kViewBytes - 3 :=
    ⟨List.replicate (kViewBytes - 3) 0x61, List.length_replicate⟩
  have hlen : (lit "\n\n" ++ 0x61 :: rest).length = kViewBytes := by
    rw [List.length_append, List.length_cons, hrest]
    rfl
  refine ⟨lit "\n\n" ++ 0x61 :: rest, answerPiece 0 (lit "\n\n"), answerPiece 2 (0x61 :: rest),
    answerPiece 0 (lit "\n"), ⟨rfl, rfl, ⟨2, rfl⟩, rfl⟩,
    ⟨rfl, rfl, ⟨(0x61 :: rest).length, ?_⟩, rfl⟩, ⟨rfl, rfl, ⟨1, rfl⟩, rfl⟩, rfl, ?_⟩
  · show some (0x61 :: rest) = some ((0x61 :: rest).take (0x61 :: rest).length)
    rw [List.take_length]
  · have hfirst : replayed [answerPiece 0 (lit "\n\n")] =
        { nodes := [answerNode (lit "\n\n")] } := rfl
    have hsecond : (replayed ([answerPiece 0 (lit "\n\n")] ++
        [answerPiece 2 (0x61 :: rest)])).nodes = [] := by
      rw [replayed_concat, hfirst, applyDelta_whole (applyDelta_first rest),
        nodes_upsert_answerNode]
      exact boundView_single (bytes_answerNode hlen) { nodes := [] }
    have hthird := replyText_again hsecond
    rw [← replayed_concat] at hthird
    exact hthird

end UAgent
