/-
UAgent/Api/AnthropicBlocks.lean

Content blocks streamed as start, deltas and stop, the events of different
blocks in any order (`DecodeAnthropicEvent`, src/api/wire_stream.cc).  The
start of a block may hold a part of its texts, its deltas bring the rest; its
input is there from the start, or comes as a JSON text in pieces
(`IsStreamed`).

Main result: `decodeAnthropicEvents_blocks`.  The replay is the blocks, each
call is that of its block, and the content of a text block is its text.
-/
import UAgent.Api.AnthropicSlots
import UAgent.Base.Gather

namespace UAgent

open Bytes

/-! ### Blocks that are streamed -/

/-- The texts that grow in pieces. -/
def grownKeys : List Bytes := [lit "text", lit "thinking", lit "signature"]

/-- The kind of a delta that brings a piece of a text. -/
def pieceKind (key : Bytes) : Bytes := key ++ lit "_delta"

/-- The pieces of a field that deltas of a kind bring. -/
def piecesOf (kind field : Bytes) (deltas : List Json) : List Bytes :=
  (deltas.filter fun delta => jsonValueStr delta (lit "type") [] = kind).map
    (jsonValueStr · field [])

/-- The citations that deltas bring. -/
def citationsOf (deltas : List Json) : List Json :=
  (deltas.filter fun delta => jsonValueStr delta (lit "type") [] = lit "citations_delta").filterMap
    citationOf

/-- The JSON text of an input in the pieces that deltas bring. -/
def inputText (deltas : List Json) : Bytes :=
  (piecesOf (lit "input_json_delta") (lit "partial_json") deltas).flatten

/-- The citations that a block has; none where it has something else. -/
def heldCitations (block : Json) : Option (List Json) :=
  match block.get? (lit "citations") with
  | some (.arr items) => some items
  | some .null | none => some []
  | some _ => none

/-- The agent's own call. -/
def IsToolUse (block : Json) : Prop := jsonValueStr block (lit "type") [] = lit "tool_use"

instance (block : Json) : Decidable (IsToolUse block) :=
  inferInstanceAs (Decidable (_ = _))

/-- A block, the value it starts as and the deltas it grows by. -/
structure StreamedBlock where
  own : Json
  started : Json
  deltas : List Json

/-- The start and the deltas bring the block: of a text the start holds a part
and the deltas the rest, the input is there from the start or comes as a JSON
text, and everything else is there from the start. -/
structure IsStreamed (parse : Bytes → Option Json) (b : StreamedBlock) : Prop where
  keyed : b.own.Keyed
  started : b.started.Keyed
  type : ∃ name, b.own.get? (lit "type") = some (.str name)
  kept : ∀ key, key ∉ grownKeys → key ≠ lit "citations" → key ≠ lit "input" →
    b.own.get? key = b.started.get? key
  grown : ∀ key ∈ grownKeys, b.own.get? key =
    if piecesOf (pieceKind key) key b.deltas = [] then b.started.get? key
    else some (.str (jsonValueStr b.started key [] ++
      (piecesOf (pieceKind key) key b.deltas).flatten))
  cited : b.own.get? (lit "citations") = b.started.get? (lit "citations") ∧
      citationsOf b.deltas = [] ∨
    citationsOf b.deltas ≠ [] ∧ ∃ items, heldCitations b.started = some items ∧
      b.own.get? (lit "citations") = some (.arr (items ++ citationsOf b.deltas))
  input : b.own.get? (lit "input") = b.started.get? (lit "input") ∧ inputText b.deltas = [] ∨
    (IsToolUse b.own →
        ∀ held, b.started.get? (lit "input") = some held → held.isEmpty = true) ∧
      inputText b.deltas ≠ [] ∧ ∃ own, parse (inputText b.deltas) = some own ∧
        b.own.get? (lit "input") = some own

/-- The events of one block. -/
structure AreEventsOf (b : StreamedBlock) (start : Json) (deltas : List Json) (stop : Json) :
    Prop where
  start_type : jsonValueStr start (lit "type") [] = lit "content_block_start"
  start_block : jsonObject start (lit "content_block") = some b.started
  delta_type : ∀ e ∈ deltas, jsonValueStr e (lit "type") [] = lit "content_block_delta"
  delta_block : deltas.map (jsonObject · (lit "delta")) = b.deltas.map some
  stop_type : jsonValueStr stop (lit "type") [] = lit "content_block_stop"

/-! ### A block grows -/

section Grow

variable {block : Json} {held : AnthropicBlock} {delta : Json}

theorem keyed_appendPiece (h : block.Keyed) (key piece : Bytes) :
    (appendPiece block key piece).Keyed := by
  rw [appendPiece]
  split <;> exact h.set key _

theorem get?_appendPiece (h : block.isObject) (key piece k : Bytes) :
    (appendPiece block key piece).get? k =
      if k = key then some (.str (jsonValueStr block key [] ++ piece)) else block.get? k := by
  rw [appendPiece, jsonValueStr]
  cases hget : block.get? key with
  | none => exact Json.get?_set h key k _
  | some value => cases value <;> exact Json.get?_set h key k _

theorem keyed_appendCitation (h : block.Keyed) (citation : Json) :
    (appendCitation block citation).Keyed := by
  rw [appendCitation]
  split
  · exact h.set _ _
  · exact h.set _ _
  · exact h.set _ _
  · exact h

theorem get?_appendCitation_of_ne (citation : Json) {k : Bytes} (h : k ≠ lit "citations") :
    (appendCitation block citation).get? k = block.get? k := by
  rw [appendCitation]
  split
  · exact Json.get?_set_ne _ _ h
  · exact Json.get?_set_ne _ _ h
  · exact Json.get?_set_ne _ _ h
  · rfl

theorem heldCitations_appendCitation (h : block.isObject) (citation : Json) {items : List Json}
    (hheld : heldCitations block = some items) :
    (appendCitation block citation).get? (lit "citations") =
        some (.arr (items ++ [citation])) ∧
      heldCitations (appendCitation block citation) = some (items ++ [citation]) := by
  have hset (v : Json) : (block.set (lit "citations") v).get? (lit "citations") = some v := by
    rw [Json.get?_set h, if_pos rfl]
  have hgrown : appendCitation block citation =
      block.set (lit "citations") (.arr (items ++ [citation])) := by
    rw [heldCitations] at hheld
    rw [appendCitation]
    cases hget : block.get? (lit "citations") with
    | none =>
      rw [hget] at hheld
      obtain rfl : [] = items := Option.some_inj.mp hheld
      rfl
    | some value =>
      rw [hget] at hheld
      cases value with
      | null =>
        obtain rfl : [] = items := Option.some_inj.mp hheld
        rfl
      | arr held =>
        obtain rfl : held = items := Option.some_inj.mp hheld
        rfl
      | _ => cases hheld
  rw [hgrown, heldCitations, hset]
  exact ⟨rfl, rfl⟩

theorem keyed_growBlock (h : held.block.Keyed) (delta : Json) :
    (growBlock held delta).block.Keyed := by
  rw [growBlock]
  split_ifs
  · exact keyed_appendPiece h _ _
  · exact h
  · exact h
  · exact keyed_appendPiece h _ _
  · exact keyed_appendPiece h _ _
  · split
    · exact keyed_appendCitation h _
    · exact h
  · exact h

/-- The member of its block that a delta writes to. -/
def writtenKey (delta : Json) : Option Bytes :=
  let type := jsonValueStr delta (lit "type") []
  if type = lit "text_delta" then some (lit "text")
  else if type = lit "thinking_delta" then some (lit "thinking")
  else if type = lit "signature_delta" then some (lit "signature")
  else if type = lit "citations_delta" then some (lit "citations")
  else none

/-- All other members stay. -/
theorem get?_growBlock_of_ne (h : held.block.isObject) {key : Bytes}
    (hkey : writtenKey delta ≠ some key) :
    (growBlock held delta).block.get? key = held.block.get? key := by
  have hne {k : Bytes} (hk : some k ≠ some key) : key ≠ k := fun heq => hk (congrArg some heq.symm)
  rw [writtenKey] at hkey
  rw [growBlock]
  by_cases htext : jsonValueStr delta (lit "type") [] = lit "text_delta"
  · rw [if_pos htext] at hkey ⊢
    exact (get?_appendPiece h _ _ key).trans (if_neg (hne hkey))
  rw [if_neg htext] at hkey ⊢
  by_cases hinput : jsonValueStr delta (lit "type") [] = lit "input_json_delta"
  · rw [if_pos hinput]
    split_ifs <;> rfl
  rw [if_neg hinput]
  by_cases hthinking : jsonValueStr delta (lit "type") [] = lit "thinking_delta"
  · rw [if_pos hthinking] at hkey ⊢
    exact (get?_appendPiece h _ _ key).trans (if_neg (hne hkey))
  rw [if_neg hthinking] at hkey ⊢
  by_cases hsignature : jsonValueStr delta (lit "type") [] = lit "signature_delta"
  · rw [if_pos hsignature] at hkey ⊢
    exact (get?_appendPiece h _ _ key).trans (if_neg (hne hkey))
  rw [if_neg hsignature] at hkey ⊢
  by_cases hcitations : jsonValueStr delta (lit "type") [] = lit "citations_delta"
  · rw [if_pos hcitations] at hkey ⊢
    cases citationOf delta with
    | none => rfl
    | some citation => exact get?_appendCitation_of_ne citation (hne hkey)
  · rw [if_neg hcitations]

/-- What a delta writes to is a text that grows, or the citations. -/
theorem writtenKey_mem {key : Bytes} (h : writtenKey delta = some key) :
    key = lit "citations" ∧ jsonValueStr delta (lit "type") [] = lit "citations_delta" ∨
      key ∈ grownKeys ∧ jsonValueStr delta (lit "type") [] = pieceKind key := by
  rw [writtenKey] at h
  split_ifs at h with htext hthinking hsignature hcitations
  · obtain rfl := Option.some_inj.mp h
    exact .inr ⟨by decide, htext⟩
  · obtain rfl := Option.some_inj.mp h
    exact .inr ⟨by decide, hthinking⟩
  · obtain rfl := Option.some_inj.mp h
    exact .inr ⟨by decide, hsignature⟩
  · obtain rfl := Option.some_inj.mp h
    exact .inl ⟨rfl, hcitations⟩

/-- A delta of its kind brings a piece of a text. -/
theorem growBlock_of_kind {key : Bytes} (hkey : key ∈ grownKeys)
    (hkind : jsonValueStr delta (lit "type") [] = pieceKind key) :
    growBlock held delta =
      { held with block := appendPiece held.block key (jsonValueStr delta key []) } := by
  simp only [grownKeys, List.mem_cons, List.not_mem_nil, or_false] at hkey
  rw [growBlock, hkind]
  rcases hkey with rfl | rfl | rfl <;> rfl

/-- No other delta does. -/
theorem get?_growBlock_grown (h : held.block.isObject) (delta : Json) {key : Bytes}
    (hkey : key ∈ grownKeys) :
    (growBlock held delta).block.get? key =
      if jsonValueStr delta (lit "type") [] = pieceKind key then
        some (.str (jsonValueStr held.block key [] ++ jsonValueStr delta key []))
      else held.block.get? key := by
  by_cases hkind : jsonValueStr delta (lit "type") [] = pieceKind key
  · rw [if_pos hkind, growBlock_of_kind hkey hkind]
    exact (get?_appendPiece h key _ key).trans (if_pos rfl)
  · rw [if_neg hkind]
    refine get?_growBlock_of_ne h fun hwritten => ?_
    rcases writtenKey_mem hwritten with ⟨rfl, -⟩ | ⟨-, hsame⟩
    · exact absurd hkey (by decide)
    · exact hkind hsame

/-- What is no text and no citation stays. -/
theorem get?_growBlock_kept (h : held.block.isObject) (delta : Json) {key : Bytes}
    (hkey : key ∉ grownKeys) (hcitations : key ≠ lit "citations") :
    (growBlock held delta).block.get? key = held.block.get? key := by
  refine get?_growBlock_of_ne h fun hwritten => ?_
  rcases writtenKey_mem hwritten with ⟨hsame, -⟩ | ⟨hgrown, -⟩
  · exact hcitations hsame
  · exact hkey hgrown

end Grow

/-! ### All deltas of a block -/

section Deltas

variable {held : AnthropicBlock} {deltas : List Json}

theorem keyed_foldl_growBlock (h : held.block.Keyed) (deltas : List Json) :
    (deltas.foldl growBlock held).block.Keyed := by
  induction deltas generalizing held with
  | nil => exact h
  | cons delta deltas ih => exact ih (keyed_growBlock h delta)

theorem get?_foldl_growBlock_kept (h : held.block.Keyed) (deltas : List Json) {key : Bytes}
    (hkey : key ∉ grownKeys) (hcitations : key ≠ lit "citations") :
    (deltas.foldl growBlock held).block.get? key = held.block.get? key := by
  induction deltas generalizing held with
  | nil => rfl
  | cons delta deltas ih =>
    exact (ih (keyed_growBlock h delta)).trans
      (get?_growBlock_kept h.isObject delta hkey hcitations)

/-- A text in the end: what was there, and the pieces. -/
theorem get?_foldl_growBlock_grown (h : held.block.Keyed) (deltas : List Json) {key : Bytes}
    (hkey : key ∈ grownKeys) :
    (deltas.foldl growBlock held).block.get? key =
      if piecesOf (pieceKind key) key deltas = [] then held.block.get? key
      else some (.str (jsonValueStr held.block key [] ++
        (piecesOf (pieceKind key) key deltas).flatten)) := by
  induction deltas generalizing held with
  | nil => rfl
  | cons delta deltas ih =>
    have hgrown := get?_growBlock_grown h.isObject delta hkey
    rw [List.foldl_cons, ih (keyed_growBlock h delta)]
    by_cases hkind : jsonValueStr delta (lit "type") [] = pieceKind key
    · have hpieces : piecesOf (pieceKind key) key (delta :: deltas) =
          jsonValueStr delta key [] :: piecesOf (pieceKind key) key deltas := by
        rw [piecesOf, List.filter_cons_of_pos (by simpa using hkind)]
        rfl
      rw [if_pos hkind] at hgrown
      have htext : jsonValueStr (growBlock held delta).block key [] =
          jsonValueStr held.block key [] ++ jsonValueStr delta key [] := by
        rw [jsonValueStr, hgrown]
      rw [hpieces, if_neg (List.cons_ne_nil _ _), hgrown, htext, List.flatten_cons,
        ← List.append_assoc]
      split_ifs with hnone
      · rw [hnone, List.flatten_nil, List.append_nil]
      · rfl
    · have hpieces : piecesOf (pieceKind key) key (delta :: deltas) =
          piecesOf (pieceKind key) key deltas := by
        rw [piecesOf, List.filter_cons_of_neg (by simpa using hkind)]
        rfl
      rw [if_neg hkind] at hgrown
      have htext : jsonValueStr (growBlock held delta).block key [] =
          jsonValueStr held.block key [] := by
        rw [jsonValueStr, hgrown]
        rfl
      rw [hpieces, hgrown, htext]

/-- The citations in the end: those that were there, and those that came. -/
theorem citations_foldl_growBlock (h : held.block.Keyed) (deltas : List Json) :
    (citationsOf deltas = [] →
      (deltas.foldl growBlock held).block.get? (lit "citations") =
        held.block.get? (lit "citations")) ∧
    ∀ items, heldCitations held.block = some items → citationsOf deltas ≠ [] →
      (deltas.foldl growBlock held).block.get? (lit "citations") =
        some (.arr (items ++ citationsOf deltas)) := by
  induction deltas generalizing held with
  | nil => exact ⟨fun _ => rfl, fun items _ hne => absurd rfl hne⟩
  | cons delta deltas ih =>
    obtain ⟨ihnone, ihsome⟩ := ih (keyed_growBlock h delta)
    by_cases hkind : jsonValueStr delta (lit "type") [] = lit "citations_delta"
    · have hblock : growBlock held delta =
          (citationOf delta).elim held fun citation =>
            { held with block := appendCitation held.block citation } := by
        rw [growBlock, hkind]
        cases citationOf delta <;> rfl
      cases hcitation : citationOf delta with
      | none =>
        have hsame : citationsOf (delta :: deltas) = citationsOf deltas := by
          rw [citationsOf, List.filter_cons_of_pos (by simpa using hkind),
            List.filterMap_cons_none hcitation]
          rfl
        rw [hcitation] at hblock
        rw [hblock] at ihnone ihsome
        rw [List.foldl_cons, hblock, hsame]
        exact ⟨ihnone, ihsome⟩
      | some citation =>
        have hmore : citationsOf (delta :: deltas) = citation :: citationsOf deltas := by
          rw [citationsOf, List.filter_cons_of_pos (by simpa using hkind),
            List.filterMap_cons_some hcitation]
          rfl
        rw [hcitation, Option.elim_some] at hblock
        rw [hblock] at ihnone ihsome
        rw [List.foldl_cons, hblock, hmore]
        refine ⟨fun hnil => absurd hnil (List.cons_ne_nil _ _), fun items hheld _ => ?_⟩
        obtain ⟨hget, hheld'⟩ := heldCitations_appendCitation h.isObject citation hheld
        by_cases hnone : citationsOf deltas = []
        · rw [ihnone hnone, hget, hnone]
        · rw [ihsome _ hheld' hnone, List.append_assoc]
          rfl
    · have hsame : citationsOf (delta :: deltas) = citationsOf deltas := by
        rw [citationsOf, List.filter_cons_of_neg (by simpa using hkind)]
        rfl
      have hget : (growBlock held delta).block.get? (lit "citations") =
          held.block.get? (lit "citations") := by
        refine get?_growBlock_of_ne h.isObject fun hwritten => ?_
        rcases writtenKey_mem hwritten with ⟨-, hcitations⟩ | ⟨hgrown, -⟩
        · exact hkind hcitations
        · exact absurd hgrown (by decide)
      have hheld : heldCitations (growBlock held delta).block = heldCitations held.block := by
        rw [heldCitations, hget]
        rfl
      rw [List.foldl_cons, hsame]
      exact ⟨fun hnone => (ihnone hnone).trans hget,
        fun items hitems hne => ihsome items (hheld.trans hitems) hne⟩

theorem inputText_cons (delta : Json) (deltas : List Json) :
    inputText (delta :: deltas) =
      (if jsonValueStr delta (lit "type") [] = lit "input_json_delta" then
        jsonValueStr delta (lit "partial_json") [] else []) ++ inputText deltas := by
  by_cases hkind : jsonValueStr delta (lit "type") [] = lit "input_json_delta"
  · rw [inputText, piecesOf, List.filter_cons_of_pos (by simpa using hkind), if_pos hkind]
    rfl
  · rw [inputText, piecesOf, List.filter_cons_of_neg (by simpa using hkind), if_neg hkind]
    rfl

theorem isToolUse_growBlock (h : held.block.isObject) (delta : Json) :
    IsToolUse (growBlock held delta).block ↔ IsToolUse held.block := by
  have htype : (growBlock held delta).block.get? (lit "type") = held.block.get? (lit "type") :=
    get?_growBlock_kept h delta (by decide) (by decide)
  rw [IsToolUse, IsToolUse, jsonValueStr, htype]
  rfl

/-- Input that is for no call stays with its block. -/
theorem input_growBlock (held : AnthropicBlock) (delta : Json) :
    (growBlock held delta).input = held.input ++
      if IsToolUse held.block then []
      else if jsonValueStr delta (lit "type") [] = lit "input_json_delta" then
        jsonValueStr delta (lit "partial_json") [] else [] := by
  by_cases hinput : jsonValueStr delta (lit "type") [] = lit "input_json_delta"
  · have hblock : growBlock held delta =
        if IsToolUse held.block then held
        else { held with input := held.input ++ jsonValueStr delta (lit "partial_json") [] } := by
      rw [growBlock, hinput]
      rfl
    rw [hblock, if_pos hinput]
    by_cases htool : IsToolUse held.block
    · rw [if_pos htool, if_pos htool, List.append_nil]
    · rw [if_neg htool, if_neg htool]
  · have hsame : (growBlock held delta).input = held.input := by
      rw [growBlock]
      split_ifs
      · rfl
      · rfl
      · rfl
      · split <;> rfl
      · rfl
    rw [hsame, if_neg hinput, ite_self, List.append_nil]

theorem input_foldl_growBlock (h : held.block.Keyed) (deltas : List Json) :
    (deltas.foldl growBlock held).input = held.input ++
      if IsToolUse held.block then [] else inputText deltas := by
  induction deltas generalizing held with
  | nil =>
    show held.input = held.input ++ if IsToolUse held.block then [] else []
    rw [ite_self, List.append_nil]
  | cons delta deltas ih =>
    rw [List.foldl_cons, ih (keyed_growBlock h delta), input_growBlock, inputText_cons,
      List.append_assoc]
    simp only [isToolUse_growBlock h.isObject delta]
    split_ifs <;> rfl

end Deltas

/-- A call whose id, name and parsed arguments are those of its block. -/
structure IsCallOf (parse : Bytes → Option Json) (own : Json) (call : StreamedCall) : Prop where
  id : call.id = jsonValueStr own (lit "id") []
  name : call.name = jsonValueStr own (lit "name") []
  args : ∀ input, own.get? (lit "input") = some input → parse call.args = some input

section Grown

variable {parse : Bytes → Option Json} {b : StreamedBlock}

/-- The block that its deltas have made. -/
def StreamedBlock.grown (b : StreamedBlock) : AnthropicBlock :=
  b.deltas.foldl growBlock { block := b.started }

theorem keyed_grown (h : IsStreamed parse b) : b.grown.block.Keyed :=
  keyed_foldl_growBlock h.started b.deltas

theorem get?_grown_input (h : IsStreamed parse b) :
    b.grown.block.get? (lit "input") = b.started.get? (lit "input") :=
  get?_foldl_growBlock_kept h.started b.deltas (by decide) (by decide)

/-- But for its input it is the block. -/
theorem get?_grown (h : IsStreamed parse b) {key : Bytes} (hkey : key ≠ lit "input") :
    b.grown.block.get? key = b.own.get? key := by
  by_cases hgrown : key ∈ grownKeys
  · rw [h.grown key hgrown]
    exact get?_foldl_growBlock_grown h.started b.deltas hgrown
  by_cases hcitations : key = lit "citations"
  · obtain ⟨hnone, hsome⟩ :=
      @citations_foldl_growBlock { block := b.started } h.started b.deltas
    rw [hcitations]
    rcases h.cited with ⟨hown, hnil⟩ | ⟨hne, items, hheld, hown⟩
    · rw [hown]
      exact hnone hnil
    · rw [hown]
      exact hsome items hheld hne
  · rw [h.kept key hgrown hcitations hkey]
    exact get?_foldl_growBlock_kept h.started b.deltas hgrown hcitations

theorem jsonValueStr_grown (h : IsStreamed parse b) {key : Bytes} (hkey : key ≠ lit "input") :
    jsonValueStr b.grown.block key [] = jsonValueStr b.own key [] := by
  rw [jsonValueStr, get?_grown h hkey]
  rfl

theorem isToolUse_grown (h : IsStreamed parse b) : IsToolUse b.grown.block ↔ IsToolUse b.own := by
  rw [IsToolUse, IsToolUse, jsonValueStr_grown h (by decide)]

/-- What is there from the start is the block's own. -/
theorem jsonValueStr_started (h : IsStreamed parse b) {key : Bytes} (hgrown : key ∉ grownKeys)
    (hcitations : key ≠ lit "citations") (hinput : key ≠ lit "input") :
    jsonValueStr b.started key [] = jsonValueStr b.own key [] := by
  rw [jsonValueStr, ← h.kept key hgrown hcitations hinput]
  rfl

theorem isToolUse_started (h : IsStreamed parse b) : IsToolUse b.started ↔ IsToolUse b.own := by
  rw [IsToolUse, IsToolUse, jsonValueStr_started h (by decide) (by decide) (by decide)]

/-- With the input of the block it is the block. -/
theorem set_grown_input (h : IsStreamed parse b) {input : Json}
    (hown : b.own.get? (lit "input") = some input) :
    b.grown.block.set (lit "input") input = b.own := by
  refine Json.eq_of_get? ((keyed_grown h).set _ _) h.keyed fun key => ?_
  rw [Json.get?_set (keyed_grown h).isObject]
  split_ifs with hkey
  · rw [hkey, hown]
  · exact get?_grown h hkey

/-- So it is when the input was there from the start. -/
theorem grown_eq_own (h : IsStreamed parse b)
    (hown : b.own.get? (lit "input") = b.started.get? (lit "input")) : b.grown.block = b.own := by
  refine Json.eq_of_get? (keyed_grown h) h.keyed fun key => ?_
  by_cases hkey : key = lit "input"
  · rw [hkey, hown]
    exact get?_grown_input h
  · exact get?_grown h hkey

theorem block_parseInput (h : IsStreamed parse b) {text : Bytes}
    (htext : parse text = none ∧ b.own.get? (lit "input") = b.started.get? (lit "input") ∨
      ∃ input, parse text = some input ∧ b.own.get? (lit "input") = some input) :
    (parseInput parse b.grown text).block = b.own := by
  rw [parseInput]
  rcases htext with ⟨hnone, hown⟩ | ⟨input, hsome, hown⟩
  · rw [hnone]
    exact grown_eq_own h hown
  · rw [hsome]
    exact set_grown_input h hown

end Grown

/-! ### The stream of all blocks -/

/-- The events of all blocks, those of each block in their order. -/
structure Interleaved (blocks : List (Int × StreamedBlock)) (events : List Json) : Prop where
  each : ∀ b ∈ blocks, ∃ start deltas stop, AreEventsOf b.2 start deltas stop ∧
    events.filter (fun e => blockIndex e = some b.1) = start :: deltas ++ [stop]
  only : ∀ e ∈ events, ∀ i, blockIndex e = some i → i ∈ blocks.map Prod.fst

/-- The end of the message. -/
def IsMessageStop (value : Json) : Prop :=
  jsonValueStr value (lit "type") [] = lit "message_stop" ∧ eventIndex value = none

section Mixed

variable {blocks : List (Int × StreamedBlock)} {events : List Json} {last : Json}

theorem blockIndex_messageStop (h : IsMessageStop last) : blockIndex last = none := by
  rw [blockIndex]
  split_ifs
  · rfl
  · exact h.2

/-- The indices of the blocks are the only ones. -/
theorem Interleaved.filter_eq_nil (h : Interleaved blocks events) {i : Int}
    (hi : i ∉ blocks.map Prod.fst) : events.filter (fun e => blockIndex e = some i) = [] := by
  rw [List.filter_eq_nil_iff]
  intro e he
  have hnot := mt (h.only e he i) hi
  simpa using hnot

end Mixed

/-- The replay of blocks that hold something. -/
theorem filterMap_blocks {blocks : List (Int × StreamedBlock)}
    {held : List (Int × AnthropicBlock)} (hfull : ∀ b ∈ blocks, b.2.own.isEmpty = false)
    (h : List.Forall₂ (fun b e => b.1 = e.1 ∧ e.2.block = b.2.own) blocks held) :
    (held.filterMap fun e => if e.2.block.isEmpty then none else some e.2.block) =
      blocks.map fun b => b.2.own := by
  induction h with
  | nil => rfl
  | @cons b e blocks held hfirst _ ih =>
    have hone : (if e.2.block.isEmpty then none else some e.2.block) = some b.2.own := by
      rw [hfirst.2, hfull b List.mem_cons_self]
      rfl
    rw [List.filterMap_cons, hone, List.map_cons,
      ih fun b' hb' => hfull b' (List.mem_cons_of_mem _ hb')]

/-- Deltas bring the pieces of the text to the answer. -/
theorem flatMap_eventContent_deltas {events deltas : List Json}
    (htype : ∀ e ∈ events, jsonValueStr e (lit "type") [] = lit "content_block_delta")
    (hdelta : events.map (jsonObject · (lit "delta")) = deltas.map some) :
    events.flatMap eventContent = (piecesOf (lit "text_delta") (lit "text") deltas).flatten := by
  induction events generalizing deltas with
  | nil =>
    obtain rfl : deltas = [] := List.map_eq_nil_iff.mp hdelta.symm
    rfl
  | cons e events ih =>
    match deltas, hdelta with
    | delta :: deltas, hdelta =>
      obtain ⟨hfirst, hrest⟩ := List.cons.inj hdelta
      dsimp only at hfirst
      have hone : eventContent e =
          if jsonValueStr delta (lit "type") [] = lit "text_delta" then
            jsonValueStr delta (lit "text") [] else [] := by
        rw [eventContent, htype e List.mem_cons_self, hfirst]
        rfl
      have hall := ih (fun e' he' => htype e' (List.mem_cons_of_mem _ he')) hrest
      rw [List.flatMap_cons, hone, hall, piecesOf, piecesOf]
      by_cases hkind : jsonValueStr delta (lit "type") [] = lit "text_delta"
      · rw [if_pos hkind, List.filter_cons_of_pos (by simpa using hkind), List.map_cons,
          List.flatten_cons]
      · rw [if_neg hkind, List.filter_cons_of_neg (by simpa using hkind), List.nil_append]

/-- The content of a text block is its text. -/
theorem flatMap_eventContent {parse : Bytes → Option Json} {b : StreamedBlock}
    (h : IsStreamed parse b) {start stop : Json} {deltas : List Json}
    (hevents : AreEventsOf b start deltas stop)
    (htype : jsonValueStr b.own (lit "type") [] = lit "text") :
    (start :: deltas ++ [stop]).flatMap eventContent = jsonValueStr b.own (lit "text") [] := by
  have hstart : eventContent start = jsonValueStr b.started (lit "text") [] := by
    rw [eventContent, hevents.start_type, hevents.start_block]
    exact if_pos ((jsonValueStr_started h (by decide) (by decide) (by decide)).trans htype)
  have hstop : eventContent stop = [] := by
    rw [eventContent, hevents.stop_type]
    rfl
  have hown : jsonValueStr b.own (lit "text") [] = jsonValueStr b.started (lit "text") [] ++
      (piecesOf (lit "text_delta") (lit "text") b.deltas).flatten := by
    have hgrown := h.grown (lit "text") (by decide)
    rw [jsonValueStr, hgrown]
    split_ifs with hnone
    · have hnil : piecesOf (lit "text_delta") (lit "text") b.deltas = [] := hnone
      rw [hnil, List.flatten_nil, List.append_nil]
      rfl
    · rfl
  rw [List.cons_append, List.flatMap_cons, List.flatMap_append, hstart,
    flatMap_eventContent_deltas hevents.delta_type hevents.delta_block, List.flatMap_cons, hstop,
    List.flatMap_nil, List.append_nil, List.append_nil, hown]

section Stream

variable [DoubleText] {parse : Bytes → Option Json}

/-- The deltas of a block, for it and its call. -/
theorem foldl_slotEvent_deltas {held : AnthropicBlock} (h : held.block.Keyed)
    {call : Option StreamedCall} (hcall : IsToolUse held.block → call.isSome)
    {events deltas : List Json}
    (htype : ∀ e ∈ events, jsonValueStr e (lit "type") [] = lit "content_block_delta")
    (hdelta : events.map (jsonObject · (lit "delta")) = deltas.map some) :
    events.foldl (slotEvent parse) (some held, call) =
      (some (deltas.foldl growBlock held),
        if IsToolUse held.block then
          call.map fun c => { c with args := c.args ++ inputText deltas }
        else call) := by
  induction events generalizing held call deltas with
  | nil =>
    obtain rfl : deltas = [] := List.map_eq_nil_iff.mp hdelta.symm
    refine Prod.ext rfl ?_
    show call = _
    split_ifs
    · cases call with
      | none => rfl
      | some call => simp [inputText, piecesOf]
    · rfl
  | cons e events ih =>
    match deltas, hdelta with
    | delta :: deltas, hdelta =>
      obtain ⟨hfirst, hrest⟩ := List.cons.inj hdelta
      dsimp only at hfirst
      have hstep : slotEvent parse (some held, call) e =
          (some (growBlock held delta), growCall held call delta) := by
        rw [slotEvent, htype e List.mem_cons_self, hfirst]
        rfl
      have htool := isToolUse_growBlock h.isObject delta
      have hsome : IsToolUse (growBlock held delta).block → (growCall held call delta).isSome := by
        intro ht
        rw [growCall]
        split_ifs
        · rfl
        · exact hcall (htool.mp ht)
      rw [List.foldl_cons, hstep, ih (keyed_growBlock h delta) hsome
        (fun e' he' => htype e' (List.mem_cons_of_mem _ he')) hrest, List.foldl_cons]
      refine Prod.ext rfl ?_
      dsimp only
      simp only [htool]
      rw [growCall, inputText_cons]
      by_cases ht : IsToolUse held.block
      · obtain ⟨c, rfl⟩ := Option.isSome_iff_exists.mp (hcall ht)
        have ht' : jsonValueStr held.block (lit "type") [] = lit "tool_use" := ht
        by_cases hinput : jsonValueStr delta (lit "type") [] = lit "input_json_delta"
        · simp [ht, ht', hinput]
        · simp [ht, hinput]
      · rw [if_neg ht, if_neg ht]
        exact if_neg fun hboth => ht hboth.2

/-- The arguments that the start of a call holds. -/
def startArgs (started : Json) : Bytes :=
  match started.get? (lit "input") with
  | some input => if input.isEmpty then [] else input.dump
  | none => []

theorem startCall_of_toolUse {started : Json} (h : IsToolUse started) :
    startCall none started =
      some
        { id := jsonValueStr started (lit "id") []
          name := jsonValueStr started (lit "name") []
          args := startArgs started } := if_pos h

theorem startCall_of_not_toolUse {started : Json} (h : ¬IsToolUse started) :
    startCall none started = none := if_neg h

theorem stoppedBlock_toolUse {held : AnthropicBlock} (h : IsToolUse held.block)
    (call : Option StreamedCall) :
    stoppedBlock parse held call = parseInput parse held ((stopCall held call).getD {}).args :=
  if_pos h

theorem stoppedBlock_other {held : AnthropicBlock} (h : ¬IsToolUse held.block)
    (call : Option StreamedCall) :
    stoppedBlock parse held call =
      if held.input = [] then held else parseInput parse held held.input :=
  if_neg h

section Stop

variable {b : StreamedBlock}

/-- The call when the block stops has its own input for arguments. -/
theorem stopCall_toolUse (h : IsStreamed parse b) (htool : IsToolUse b.own)
    (hempty : parse [] = none)
    (hreads : ∀ input, b.started.get? (lit "input") = some input → parse input.dump = some input)
    {call : StreamedCall} (hargs : call.args = startArgs b.started ++ inputText b.deltas) :
    ∃ args, stopCall b.grown (some call) = some { call with args } ∧
      (parse args = none ∧ b.own.get? (lit "input") = none ∧
          b.started.get? (lit "input") = none ∨
        ∃ input, parse args = some input ∧ b.own.get? (lit "input") = some input) := by
  have hgrown : IsToolUse b.grown.block := (isToolUse_grown h).mpr htool
  have hstop : stopCall b.grown (some call) =
      (match b.started.get? (lit "input") with
      | some input => some (if call.args = [] then { call with args := input.dump } else call)
      | none => some call) := by
    rw [← get?_grown_input h]
    exact if_pos hgrown
  rw [hstop]
  rcases h.input with ⟨hown, hnone⟩ | ⟨hheld, htext, input, hparse, hown⟩
  · rw [hnone, List.append_nil, startArgs] at hargs
    rw [hown]
    cases hstarted : b.started.get? (lit "input") with
    | none =>
      rw [hstarted] at hargs
      exact ⟨call.args, rfl, .inl ⟨by rw [hargs, hempty], rfl, rfl⟩⟩
    | some input =>
      rw [hstarted] at hargs
      refine ⟨input.dump, ?_, .inr ⟨input, hreads input hstarted, rfl⟩⟩
      dsimp only at hargs ⊢
      -- the start had the arguments, or they are taken now
      split_ifs with hcall
      · rfl
      · split_ifs at hargs
        · exact absurd hargs hcall
        · rw [← hargs]
  · have hstart : startArgs b.started = [] := by
      rw [startArgs]
      cases hstarted : b.started.get? (lit "input") with
      | none => rfl
      | some held => exact if_pos (hheld htool held hstarted)
    rw [hstart, List.nil_append] at hargs
    refine ⟨call.args, ?_, .inr ⟨input, by rw [hargs, hparse], hown⟩⟩
    have hcall : ¬call.args = [] := by
      rw [hargs]
      exact htext
    cases b.started.get? (lit "input") with
    | none => rfl
    | some held => simp only [if_neg hcall]

/-- **The events of a block** leave the block, and its call if it is one. -/
theorem foldl_slotEvent_block (h : IsStreamed parse b) (hempty : parse [] = none)
    (hreads : ∀ input, b.started.get? (lit "input") = some input → parse input.dump = some input)
    {start stop : Json} {deltas : List Json} (hevents : AreEventsOf b start deltas stop) :
    ∃ block call, (start :: deltas ++ [stop]).foldl (slotEvent parse) (none, none) =
        (some block, call) ∧ block.block = b.own ∧
      (IsToolUse b.own → ∃ c, call = some c ∧ IsCallOf parse b.own c) ∧
      (¬IsToolUse b.own → call = none) := by
  have hstart : slotEvent parse (none, none) start =
      (some { block := b.started }, startCall none b.started) := by
    rw [slotEvent, hevents.start_type, hevents.start_block]
    rfl
  have hstop (held : AnthropicBlock) (call : Option StreamedCall) :
      slotEvent parse (some held, call) stop =
        (some (stoppedBlock parse held call), stopCall held call) := by
    rw [slotEvent, hevents.stop_type]
    rfl
  have hsome : IsToolUse b.started → (startCall none b.started).isSome := fun htool => by
    rw [startCall_of_toolUse htool]
    rfl
  have hrun (call : Option StreamedCall)
      (hcall : (if IsToolUse b.started then
        (startCall none b.started).map fun c => { c with args := c.args ++ inputText b.deltas }
        else startCall none b.started) = call) :
      (start :: deltas ++ [stop]).foldl (slotEvent parse) (none, none) =
        (some (stoppedBlock parse b.grown call), stopCall b.grown call) := by
    rw [List.cons_append, List.foldl_cons, hstart, List.foldl_append,
      @foldl_slotEvent_deltas _ parse { block := b.started } h.started _ hsome deltas b.deltas
        hevents.delta_type hevents.delta_block]
    dsimp only
    rw [hcall, List.foldl_cons, List.foldl_nil, hstop]
    rfl
  by_cases htool : IsToolUse b.own
  · have hstarted := (isToolUse_started h).mpr htool
    rw [if_pos hstarted, startCall_of_toolUse hstarted] at hrun
    obtain ⟨args, hstopped, hparsed⟩ := @stopCall_toolUse _ parse b h htool hempty hreads
      { id := jsonValueStr b.started (lit "id") []
        name := jsonValueStr b.started (lit "name") []
        args := startArgs b.started ++ inputText b.deltas } rfl
    refine ⟨_, _, hrun _ rfl, ?_, fun _ => ⟨_, hstopped, ?_, ?_, ?_⟩, fun hnot => absurd htool hnot⟩
    · rw [stoppedBlock_toolUse ((isToolUse_grown h).mpr htool), Option.map_some, hstopped]
      refine block_parseInput h (hparsed.imp_left ?_)
      rintro ⟨hnone, hown, hheld⟩
      exact ⟨hnone, hown.trans hheld.symm⟩
    · exact jsonValueStr_started h (by decide) (by decide) (by decide)
    · exact jsonValueStr_started h (by decide) (by decide) (by decide)
    · intro input hinput
      rcases hparsed with ⟨-, hown, -⟩ | ⟨input', hparse, hown⟩
      · rw [hown] at hinput
        cases hinput
      · rw [← Option.some_inj.mp (hown.symm.trans hinput)]
        exact hparse
  · have hstarted : ¬IsToolUse b.started := fun ht => htool ((isToolUse_started h).mp ht)
    have hgrown : ¬IsToolUse b.grown.block := fun ht => htool ((isToolUse_grown h).mp ht)
    rw [if_neg hstarted, startCall_of_not_toolUse hstarted] at hrun
    refine ⟨_, _, hrun none rfl, ?_, fun ht => absurd ht htool, fun _ => if_neg hgrown⟩
    have hinput : b.grown.input = inputText b.deltas := by
      rw [StreamedBlock.grown, input_foldl_growBlock h.started]
      exact if_neg hstarted
    rw [stoppedBlock_other hgrown, hinput]
    rcases h.input with ⟨hown, hnone⟩ | ⟨-, htext, input, hparse, hown⟩
    · rw [if_pos hnone]
      exact grown_eq_own h hown
    · rw [if_neg htext]
      exact block_parseInput h (.inr ⟨input, hparse, hown⟩)

end Stop

section Run

variable {blocks : List (Int × StreamedBlock)} {events : List Json} {last : Json}

/-- The end of the message makes the replay. -/
theorem decode_messageStop (s : AnthropicStream) (h : IsMessageStop last) :
    (decodeAnthropicEvent parse s last).1 = messageStop s := by
  have hobject : ¬last.isObject = false := by
    intro hnot
    have htype := h.1
    cases last with
    | obj fields => cases hnot
    | _ => exact absurd htype (show ¬([] : Bytes) = lit "message_stop" by decide)
  rw [decodeAnthropicEvent, if_neg hobject, h.1, h.2]
  rfl

theorem decodeEvents_concat (s : AnthropicStream) (events : List Json) (last : Json) :
    (decodeAnthropicEvents parse s (events ++ [last])).1 =
      (decodeAnthropicEvent parse (decodeAnthropicEvents parse s events).1 last).1 := by
  induction events generalizing s with
  | nil => rfl
  | cons e events ih => exact ih (decodeAnthropicEvent parse s e).1

variable (hempty : parse [] = none) (hstreamed : ∀ b ∈ blocks, IsStreamed parse b.2)
  (hreads : ∀ b ∈ blocks, ∀ input, b.2.started.get? (lit "input") = some input →
    parse input.dump = some input)

include hempty hstreamed hreads

/-- What is held under the index of a block in the end. -/
theorem slot_block (hmixed : Interleaved blocks events) {b : Int × StreamedBlock}
    (hb : b ∈ blocks) :
    ∃ block call, (decodeAnthropicEvents parse {} events).1.slot b.1 = (some block, call) ∧
      block.block = b.2.own ∧ (IsToolUse b.2.own → ∃ c, call = some c ∧ IsCallOf parse b.2.own c) ∧
      (¬IsToolUse b.2.own → call = none) := by
  obtain ⟨start, deltas, stop, hevents, hfilter⟩ := hmixed.each b hb
  rw [slot_decodeEvents, hfilter]
  exact foldl_slotEvent_block (hstreamed b hb) hempty (hreads b hb) hevents

/-- **The blocks** stand in the order of their indices. -/
theorem blocks_decodeEvents (hsorted : Assoc.Sorted blocks) (hmixed : Interleaved blocks events) :
    List.Forall₂ (fun b e => b.1 = e.1 ∧ e.2.block = b.2.own) blocks
      (decodeAnthropicEvents parse {} events).1.blocks := by
  have hordered := @ordered_decodeEvents _ parse {} ordered_fresh events
  refine @Assoc.forall₂_of_lookup _ _ _ _ _ _ _ (fun (b : StreamedBlock) e => e.block = b.own) _ _
    hsorted hordered.blocks fun i => ?_
  cases hlookup : Assoc.lookup i blocks with
  | some b =>
    obtain ⟨block, call, hslot, hown, -⟩ :=
      slot_block hempty hstreamed hreads hmixed (Assoc.mem_of_lookup hlookup)
    have hblock : Assoc.lookup i (decodeAnthropicEvents parse {} events).1.blocks = some block :=
      congrArg Prod.fst hslot
    rw [hblock]
    exact .some hown
  | none =>
    have hslot := slot_decodeEvents parse {} events i
    rw [hmixed.filter_eq_nil (Assoc.lookup_eq_none.mp hlookup)] at hslot
    have hblock : Assoc.lookup i (decodeAnthropicEvents parse {} events).1.blocks = none :=
      congrArg Prod.fst hslot
    rw [hblock]
    exact .none

/-- **The calls** are those of the blocks that are calls. -/
theorem calls_decodeEvents (hsorted : Assoc.Sorted blocks) (hmixed : Interleaved blocks events) :
    List.Forall₂ (fun b call => b.1 = call.1 ∧ IsCallOf parse b.2.own call.2)
      (blocks.filter fun b => IsToolUse b.2.own)
      (decodeAnthropicEvents parse {} events).1.calls := by
  have hordered := @ordered_decodeEvents _ parse {} ordered_fresh events
  have hfiltered : Assoc.Sorted (blocks.filter fun b => IsToolUse b.2.own) :=
    hsorted.sublist (List.filter_sublist.map _)
  refine @Assoc.forall₂_of_lookup _ _ _ _ _ _ _
    (fun (b : StreamedBlock) call => IsCallOf parse b.own call) _ _ hfiltered hordered.calls
    fun i => ?_
  cases hlookup : Assoc.lookup i (blocks.filter fun b => IsToolUse b.2.own) with
  | some b =>
    obtain ⟨hb, htool⟩ := List.mem_filter.mp (Assoc.mem_of_lookup hlookup)
    obtain ⟨block, call, hslot, -, hcall, -⟩ := slot_block hempty hstreamed hreads hmixed hb
    obtain ⟨c, rfl, hof⟩ := hcall (of_decide_eq_true htool)
    have hheld : Assoc.lookup i (decodeAnthropicEvents parse {} events).1.calls = some c :=
      congrArg Prod.snd hslot
    rw [hheld]
    exact .some hof
  | none =>
    have hheld : Assoc.lookup i (decodeAnthropicEvents parse {} events).1.calls = none := by
      cases hall : Assoc.lookup i blocks with
      | none =>
        have hslot := slot_decodeEvents parse {} events i
        rw [hmixed.filter_eq_nil (Assoc.lookup_eq_none.mp hall)] at hslot
        exact congrArg Prod.snd hslot
      | some b =>
        have hb := Assoc.mem_of_lookup hall
        have hother : ¬IsToolUse b.own := by
          intro htool
          refine Assoc.lookup_eq_none.mp hlookup (List.mem_map.mpr ⟨(i, b), ?_, rfl⟩)
          exact List.mem_filter.mpr ⟨hb, decide_eq_true htool⟩
        obtain ⟨block, call, hslot, -, -, hnone⟩ := slot_block hempty hstreamed hreads hmixed hb
        exact (congrArg Prod.snd hslot).trans (hnone hother)
    rw [hheld]
    exact .none

end Run

/-! ### Whole blocks -/

/-- **Blocks that are streamed** come to the replay as they are, in the order
of their indices and however their events are mixed; each call has the id, the
name and the arguments of its block, and the content of each text block is its
text. -/
theorem decodeAnthropicEvents_blocks (parse : Bytes → Option Json) (hempty : parse [] = none)
    {blocks : List (Int × StreamedBlock)} (hsorted : Assoc.Sorted blocks)
    (hstreamed : ∀ b ∈ blocks, IsStreamed parse b.2)
    (hreads : ∀ b ∈ blocks, ∀ input, b.2.started.get? (lit "input") = some input →
      parse input.dump = some input)
    {events : List Json} (hmixed : Interleaved blocks events) {last : Json}
    (hlast : IsMessageStop last) :
    (decodeAnthropicEvents parse {} (events ++ [last])).1.replay =
        some (blocks.map fun b => b.2.own) ∧
      List.Forall₂ (fun b call => b.1 = call.1 ∧ IsCallOf parse b.2.own call.2)
        (blocks.filter fun b => IsToolUse b.2.own)
        (decodeAnthropicEvents parse {} (events ++ [last])).1.calls ∧
      ∀ b ∈ blocks, jsonValueStr b.2.own (lit "type") [] = lit "text" →
        contentOf b.1 (events ++ [last]) (decodeAnthropicEvents parse {} (events ++ [last])).2 =
          jsonValueStr b.2.own (lit "text") [] := by
  have hstate : (decodeAnthropicEvents parse {} (events ++ [last])).1 =
      messageStop (decodeAnthropicEvents parse {} events).1 := by
    rw [decodeEvents_concat, decode_messageStop _ hlast]
  rw [hstate]
  refine ⟨?_, calls_decodeEvents hempty hstreamed hreads hsorted hmixed, fun b hb htype => ?_⟩
  · have hfull : ∀ b ∈ blocks, b.2.own.isEmpty = false := fun b hb => by
      obtain ⟨name, htype⟩ := (hstreamed b hb).type
      obtain ⟨fields, hown, -⟩ := (hstreamed b hb).keyed
      rw [hown] at htype ⊢
      cases fields with
      | nil => cases htype
      | cons field fields => rfl
    exact congrArg some
      (filterMap_blocks hfull (blocks_decodeEvents hempty hstreamed hreads hsorted hmixed))
  · obtain ⟨start, deltas, stop, hevents, hfilter⟩ := hmixed.each b hb
    have hlast' : ([last].filter fun e => blockIndex e = some b.1) = [] := by
      rw [List.filter_cons_of_neg (by simp [blockIndex_messageStop hlast]), List.filter_nil]
    rw [contentOf_decodeEvents, List.filter_append, hlast', List.append_nil, hfilter]
    exact flatMap_eventContent (hstreamed b hb) hevents htype

end Stream

/-! ### A text and a call -/

/-- Parsing, for the input below. -/
def parseRoot (text : Bytes) : Option Json :=
  if text = lit "\x7b\"path\":\"/\"\x7d" then some (.ofFields [(lit "path", .str (lit "/"))])
  else if text = lit "\x7b\x7d" then some (.obj [])
  else none

/-- A text of which the start holds a half. -/
def halfText : StreamedBlock where
  own := .ofFields [(lit "type", .str (lit "text")), (lit "text", .str (lit "Hello"))]
  started := .ofFields [(lit "type", .str (lit "text")), (lit "text", .str (lit "He"))]
  deltas := [.ofFields [(lit "type", .str (lit "text_delta")), (lit "text", .str (lit "llo"))]]

/-- A call of which the start has an empty input. -/
def rootCall (input : Json) : Json :=
  .ofFields [(lit "type", .str (lit "tool_use")), (lit "id", .str (lit "a")),
    (lit "name", .str (lit "list")), (lit "input", input)]

/-- The piece of an input that a delta brings. -/
def inputDelta (piece : Bytes) : Json :=
  .ofFields [(lit "type", .str (lit "input_json_delta")), (lit "partial_json", .str piece)]

def listRoot : StreamedBlock where
  own := rootCall (.ofFields [(lit "path", .str (lit "/"))])
  started := rootCall (.obj [])
  deltas := [inputDelta (lit "\x7b\"path\":"), inputDelta (lit "\"/\"\x7d")]

/-- An event of the block under an index, with what it brings under a key. -/
def indexedEvent (type : Bytes) (index : UInt64) (key : Bytes) (value : Json) : Json :=
  .ofFields [(lit "type", .str type), (lit "index", .uint index), (key, value)]

def startEvent (index : UInt64) (started : Json) : Json :=
  indexedEvent (lit "content_block_start") index (lit "content_block") started

def deltaEvent (index : UInt64) (delta : Json) : Json :=
  indexedEvent (lit "content_block_delta") index (lit "delta") delta

def stopEvent (index : UInt64) : Json :=
  .ofFields [(lit "type", .str (lit "content_block_stop")), (lit "index", .uint index)]

/-- The events of the two, the one block within the other. -/
def mixedEvents : List Json :=
  startEvent 0 halfText.started :: startEvent 1 listRoot.started ::
    (listRoot.deltas.map (deltaEvent 1) ++ halfText.deltas.map (deltaEvent 0) ++
      [stopEvent 1, stopEvent 0])

theorem halfText_streamed : IsStreamed parseRoot halfText where
  keyed := Json.keyed_ofFields _
  started := Json.keyed_ofFields _
  type := ⟨lit "text", by decide⟩
  kept key hgrown _ _ := by
    have hown : halfText.own = halfText.started.set (lit "text") (.str (lit "Hello")) := by decide
    have hne : key ≠ lit "text" := fun h => hgrown (h ▸ by decide)
    rw [hown, Json.get?_set_ne _ _ hne]
  grown := by decide +kernel
  cited := .inl (by decide)
  input := .inl (by decide)

theorem listRoot_streamed : IsStreamed parseRoot listRoot where
  keyed := Json.keyed_ofFields _
  started := Json.keyed_ofFields _
  type := ⟨lit "tool_use", by decide⟩
  kept key _ _ hinput := by
    have hown : listRoot.own =
        listRoot.started.set (lit "input") (.ofFields [(lit "path", .str (lit "/"))]) := by decide
    rw [hown, Json.get?_set_ne _ _ hinput]
  grown := by decide +kernel
  cited := .inl (by decide)
  input := by
    refine .inr ⟨fun _ held hheld => ?_, by decide, _, rfl, by decide⟩
    have hobject : listRoot.started.get? (lit "input") = some (.obj []) := by decide
    rw [← Option.some_inj.mp (hobject.symm.trans hheld)]
    rfl

theorem mixedEvents_interleaved : Interleaved [(0, halfText), (1, listRoot)] mixedEvents where
  each := by
    refine List.forall_mem_cons.mpr ⟨?_, List.forall_mem_cons.mpr ⟨?_, by simp⟩⟩
    · exact ⟨startEvent 0 halfText.started, halfText.deltas.map (deltaEvent 0), stopEvent 0,
        ⟨by decide, by decide, by decide, by decide, by decide⟩, by decide +kernel⟩
    · exact ⟨startEvent 1 listRoot.started, listRoot.deltas.map (deltaEvent 1), stopEvent 1,
        ⟨by decide, by decide, by decide, by decide, by decide⟩, by decide +kernel⟩
  only := by
    have hall : ∀ e ∈ mixedEvents, blockIndex e = some 0 ∨ blockIndex e = some 1 := by
      decide +kernel
    intro e he i hi
    rcases hall e he with h | h <;> rw [hi] at h <;> simp [Option.some_inj.mp h]

theorem startedInputs_read :
    ∀ b ∈ [((0 : Int), halfText), (1, listRoot)], ∀ input,
      b.2.started.get? (lit "input") = some input →
        parseRoot (@Json.dump Json.bitsText input) = some input := by
  refine List.forall_mem_cons.mpr ⟨fun input hinput => ?_, List.forall_mem_cons.mpr
    ⟨fun input hinput => ?_, by simp⟩⟩
  · have hnone : halfText.started.get? (lit "input") = none := by decide
    rw [hnone] at hinput
    cases hinput
  · have hobject : listRoot.started.get? (lit "input") = some (.obj []) := by decide
    rw [← Option.some_inj.mp (hobject.symm.trans hinput)]
    decide

/-- A text and a call whose events are mixed: both are replayed, the call has
its id, its name and its arguments, and the text is the content. -/
theorem replay_mixedEvents :
    letI := Json.bitsText
    let events := mixedEvents ++ [.ofFields [(lit "type", .str (lit "message_stop"))]]
    let decoded := decodeAnthropicEvents parseRoot {} events
    decoded.1.replay = some [halfText.own, listRoot.own] ∧
      List.Forall₂ (fun b call => b.1 = call.1 ∧ IsCallOf parseRoot b.2.own call.2)
        [(1, listRoot)] decoded.1.calls ∧
      contentOf 0 events decoded.2 = lit "Hello" := by
  let _ := Json.bitsText
  have hlast : IsMessageStop (.ofFields [(lit "type", .str (lit "message_stop"))]) :=
    ⟨by decide, by decide⟩
  obtain ⟨hreplay, hcalls, htext⟩ := decodeAnthropicEvents_blocks parseRoot (by decide)
    (by decide) (List.forall_mem_cons.mpr ⟨halfText_streamed, List.forall_mem_cons.mpr
      ⟨listRoot_streamed, by simp⟩⟩) startedInputs_read mixedEvents_interleaved hlast
  exact ⟨hreplay, hcalls, htext (0, halfText) List.mem_cons_self (by decide)⟩

end UAgent
