/-
UAgent/App/HiddenKeys.lean

Keys that a providers value hides on the settings screen
(src/app/config_proposal.cc): `SanitizeCompositeValue` replaces every `api_key`
that is no environment reference, at whatever depth, and `KeepHiddenKeys` puts
the held ones back into what the screen returns.

The first walks the whole tree and the second looks only under each provider's
name, as far as a NUL in it.  `hidden_keys_kept_iff` says for which values the
way out and back keeps everything: those that hide keys only directly in a
provider, under a name without a NUL, and hold no `renamed_from` of their own.
-/
import UAgent.Base.JsonText
import UAgent.Core.Json

namespace UAgent

open Bytes Json

/-! ### What is hidden -/

/-- `isalpha` in the "C" locale. -/
def isAlpha (c : UInt8) : Bool := (0x41 ≤ c && c ≤ 0x5a) || (0x61 ≤ c && c ≤ 0x7a)

/-- What follows the `$`, without the braces of `${NAME}`. -/
def referenceName (value : Bytes) : Option Bytes :=
  if value.length ≥ 4 && value[0]? = some (ch '$') && value[1]? = some (ch '\x7b') &&
      value.getLast? = some (ch '\x7d') then some (value.drop 2).dropLast
  else if value.length ≥ 2 && value[0]? = some (ch '$') then some (value.drop 1)
  else none

def environmentReference (value : Bytes) : Bool :=
  match referenceName value with
  | some (first :: name) =>
    (isAlpha first || first = ch '_') && (first :: name).all fun c => isAlnum c || c = ch '_'
  | _ => false

def kRedactedValue : Bytes := lit "<redacted>"

/-- A member that is not shown. -/
def hidden (key : Bytes) (child : Json) : Bool :=
  key = lit "api_key" &&
    match child with
    | .str value => !environmentReference value
    | _ => true

mutual

/-- A node as it is shown, and whether anything in it, or before it, was
replaced. -/
def sanitizeCompositeNode : Json → Bool → Json × Bool
  | .arr items, changed =>
    let (items, changed) := sanitizeItems items changed
    (.arr items, changed)
  | .obj fields, changed =>
    let (fields, changed) := sanitizeFields fields changed
    (.obj fields, changed)
  | node, changed => (node, changed)

def sanitizeItems : List Json → Bool → List Json × Bool
  | [], changed => ([], changed)
  | item :: items, changed =>
    let (item, changed) := sanitizeCompositeNode item changed
    let (items, changed) := sanitizeItems items changed
    (item :: items, changed)

def sanitizeFields : List (Bytes × Json) → Bool → List (Bytes × Json) × Bool
  | [], changed => ([], changed)
  | (key, child) :: fields, changed =>
    let (child, changed) :=
      if hidden key child then (.str kRedactedValue, true) else sanitizeCompositeNode child changed
    let (fields, changed) := sanitizeFields fields changed
    ((key, child) :: fields, changed)

end

/-! ### Out to the screen and back -/

section Texts

variable (parse : Bytes → Option Json)

/-- The text that is shown for a value; `parse` is `json::parse`, which
discards what is no JSON. -/
def sanitizeCompositeValue [DoubleText] (value : Bytes) : Bytes :=
  match parse value with
  | some (.obj fields) =>
    let (parsed, changed) := sanitizeCompositeNode (.obj fields) false
    if changed then dump parsed else value
  | _ => kRedactedValue

/-- One provider of the value that comes back. -/
def keepProvider (before : Json) (name : Bytes) (provider : Json) : Except Bytes Json :=
  if !provider.isObject then .ok provider
  else
    let was := jsonValueStr provider (lit "renamed_from") name
    let provider := provider.erase (lit "renamed_from")
    if jsonValueStr provider (lit "api_key") [] ≠ kRedactedValue then .ok provider
    else
      -- Held under `was.c_str()`, which ends at a NUL.
      match (jsonObject before (untilFirst 0 was)).bind (·.get? (lit "api_key")) with
      | some key => .ok (provider.set (lit "api_key") key)
      | none => .error (lit "enter the key for provider " ++ name)

def keepProviders (before : Json) : List (Bytes × Json) → Except Bytes (List (Bytes × Json))
  | [] => .ok []
  | (name, provider) :: providers => do
    let provider ← keepProvider before name provider
    let providers ← keepProviders before providers
    .ok ((name, provider) :: providers)

/-- What `KeepHiddenKeys` returns: a text that is no object as it came, the
dump of an object, or an error. -/
inductive KeptKeys
  | text (value : Bytes)
  | stored (providers : Json)
  | failed (error : Bytes)
deriving DecidableEq

def keepHiddenKeys (value held : Bytes) : KeptKeys :=
  match parse value with
  | some (.obj providers) =>
    match keepProviders ((parse held).getD .null) providers with
    | .ok providers => .stored (.obj providers)
    | .error error => .failed error
  | _ => .text value

end Texts

/-! ### The hidden keys of a value -/

/-- A step from a container to one of its values. -/
inductive PathStep
  | member (key : Bytes)
  | item (index : Nat)
deriving DecidableEq

mutual

/-- A value with every hidden key replaced. -/
def sanitized : Json → Json
  | .arr items => .arr (sanitizedItems items)
  | .obj fields => .obj (sanitizedFields fields)
  | node => node

def sanitizedItems : List Json → List Json
  | [] => []
  | item :: items => sanitized item :: sanitizedItems items

def sanitizedFields : List (Bytes × Json) → List (Bytes × Json)
  | [] => []
  | (key, child) :: fields =>
    (key, if hidden key child then .str kRedactedValue else sanitized child) ::
      sanitizedFields fields

end

mutual

/-- Where a value hides its keys, and what they are. -/
def hiddenKeys : Json → List (List PathStep × Json)
  | .arr items => hiddenInItems 0 items
  | .obj fields => hiddenInFields fields
  | _ => []

def hiddenInItems : Nat → List Json → List (List PathStep × Json)
  | _, [] => []
  | index, item :: items =>
    (hiddenKeys item).map (fun h => (.item index :: h.1, h.2)) ++ hiddenInItems (index + 1) items

def hiddenInFields : List (Bytes × Json) → List (List PathStep × Json)
  | [] => []
  | (key, child) :: fields =>
    (if hidden key child then [([.member key], child)]
      else (hiddenKeys child).map fun h => (.member key :: h.1, h.2)) ++ hiddenInFields fields

end

mutual

theorem sanitizeCompositeNode_eq :
    (node : Json) → (changed : Bool) →
      sanitizeCompositeNode node changed = (sanitized node, changed || !(hiddenKeys node).isEmpty)
  | .arr items, changed => by
    simp [sanitizeCompositeNode, sanitizeItems_eq items 0 changed, sanitized, hiddenKeys]
  | .obj fields, changed => by
    simp [sanitizeCompositeNode, sanitizeFields_eq fields changed, sanitized, hiddenKeys]
  | .null, _ | .bool _, _ | .int _, _ | .uint _, _ | .float _, _ | .str _, _ => by
    simp [sanitizeCompositeNode, sanitized, hiddenKeys]

theorem sanitizeItems_eq :
    (items : List Json) → (index : Nat) → (changed : Bool) →
      sanitizeItems items changed =
        (sanitizedItems items, changed || !(hiddenInItems index items).isEmpty)
  | [], _, _ => by simp [sanitizeItems, sanitizedItems, hiddenInItems]
  | item :: items, index, changed => by
    simp only [sanitizeItems, sanitizeCompositeNode_eq item changed,
      sanitizeItems_eq items (index + 1), sanitizedItems, hiddenInItems]
    cases hiddenKeys item <;> simp

theorem sanitizeFields_eq :
    (fields : List (Bytes × Json)) → (changed : Bool) →
      sanitizeFields fields changed =
        (sanitizedFields fields, changed || !(hiddenInFields fields).isEmpty)
  | [], _ => by simp [sanitizeFields, sanitizedFields, hiddenInFields]
  | (key, child) :: fields, changed => by
    simp only [sanitizeFields, sanitizeCompositeNode_eq child changed, sanitizeFields_eq fields,
      sanitizedFields, hiddenInFields]
    by_cases hkey : hidden key child = true
    · simp [hkey]
    · cases hiddenKeys child <;> simp [hkey]

end

/-! ### Shown and settled -/

/-- A member as it is shown. -/
def shownMember (key : Bytes) (child : Json) : Json :=
  if hidden key child then .str kRedactedValue else sanitized child

/-- The hidden keys under a member. -/
def hiddenInMember (key : Bytes) (child : Json) : List (List PathStep × Json) :=
  if hidden key child then [([.member key], child)]
  else (hiddenKeys child).map fun h => (.member key :: h.1, h.2)

theorem sanitizedFields_eq_map (fields : List (Bytes × Json)) :
    sanitizedFields fields = fields.map fun e => (e.1, shownMember e.1 e.2) := by
  induction fields with
  | nil => rfl
  | cons e fields ih => rw [sanitizedFields, ih]; rfl

theorem hiddenInFields_eq_flatMap (fields : List (Bytes × Json)) :
    hiddenInFields fields = fields.flatMap fun e => hiddenInMember e.1 e.2 := by
  induction fields with
  | nil => rfl
  | cons e fields ih => rw [hiddenInFields, ih]; rfl

theorem key_of_hidden {key : Bytes} {child : Json} (h : hidden key child = true) :
    key = lit "api_key" := by
  unfold hidden at h
  rw [Bool.and_eq_true] at h
  exact of_decide_eq_true h.1

/-- A hidden key is replaced by the marker, which is hidden in its turn. -/
theorem hidden_marker {key : Bytes} {child : Json} (h : hidden key child = true) :
    hidden key (.str kRedactedValue) = true := by
  obtain rfl := key_of_hidden h
  decide

/-- Of a member that is not hidden only the inside is shown otherwise. -/
theorem hidden_sanitized {key : Bytes} {child : Json} (h : hidden key child = false) :
    hidden key (sanitized child) = false := by
  cases child with
  | str s => exact h
  | arr items => simpa [hidden, sanitized] using h
  | obj fields => simpa [hidden, sanitized] using h
  | _ => exact h

mutual

/-- Every key that a sanitized value hides is the marker. -/
theorem marker_of_hiddenKeys_sanitized :
    (node : Json) → ∀ h ∈ hiddenKeys (sanitized node), h.2 = .str kRedactedValue
  | .arr items => by
    rw [sanitized, hiddenKeys]
    exact marker_of_hiddenInItems items 0
  | .obj fields => by
    rw [sanitized, hiddenKeys]
    exact marker_of_hiddenInFields fields
  | .null | .bool _ | .int _ | .uint _ | .float _ | .str _ => by simp [sanitized, hiddenKeys]

theorem marker_of_hiddenInItems :
    (items : List Json) → (index : Nat) →
      ∀ h ∈ hiddenInItems index (sanitizedItems items), h.2 = .str kRedactedValue
  | [], _ => by simp [sanitizedItems, hiddenInItems]
  | item :: items, index => by
    intro h hmem
    rw [sanitizedItems, hiddenInItems] at hmem
    rcases List.mem_append.mp hmem with hmem | hmem
    · obtain ⟨h', hin, rfl⟩ := List.mem_map.mp hmem
      exact marker_of_hiddenKeys_sanitized item h' hin
    · exact marker_of_hiddenInItems items (index + 1) h hmem

theorem marker_of_hiddenInFields :
    (fields : List (Bytes × Json)) →
      ∀ h ∈ hiddenInFields (sanitizedFields fields), h.2 = .str kRedactedValue
  | [] => by simp [sanitizedFields, hiddenInFields]
  | (key, child) :: fields => by
    intro h hmem
    rw [sanitizedFields, hiddenInFields] at hmem
    rcases List.mem_append.mp hmem with hmem | hmem
    · cases hkey : hidden key child with
      | true =>
        simp only [hkey, hidden_marker hkey, ↓reduceIte] at hmem
        rw [List.mem_singleton.mp hmem]
      | false =>
        simp only [hkey, hidden_sanitized hkey, Bool.false_eq_true, ↓reduceIte] at hmem
        obtain ⟨h', hin, rfl⟩ := List.mem_map.mp hmem
        exact marker_of_hiddenKeys_sanitized child h' hin
    · exact marker_of_hiddenInFields fields h hmem

end

mutual

/-- A value is shown as it is just when every key it hides is the marker. -/
theorem sanitized_eq_self_iff :
    (node : Json) → (sanitized node = node ↔ ∀ h ∈ hiddenKeys node, h.2 = .str kRedactedValue)
  | .arr items => by
    rw [sanitized, hiddenKeys, Json.arr.injEq]
    exact sanitizedItems_eq_self_iff items 0
  | .obj fields => by
    rw [sanitized, hiddenKeys, Json.obj.injEq]
    exact sanitizedFields_eq_self_iff fields
  | .null | .bool _ | .int _ | .uint _ | .float _ | .str _ => by simp [sanitized, hiddenKeys]

theorem sanitizedItems_eq_self_iff :
    (items : List Json) → (index : Nat) →
      (sanitizedItems items = items ↔ ∀ h ∈ hiddenInItems index items, h.2 = .str kRedactedValue)
  | [], _ => by simp [sanitizedItems, hiddenInItems]
  | item :: items, index => by
    rw [sanitizedItems, hiddenInItems, List.cons.injEq, sanitized_eq_self_iff item,
      sanitizedItems_eq_self_iff items (index + 1), List.forall_mem_append, List.forall_mem_map]

theorem sanitizedFields_eq_self_iff :
    (fields : List (Bytes × Json)) →
      (sanitizedFields fields = fields ↔ ∀ h ∈ hiddenInFields fields, h.2 = .str kRedactedValue)
  | [] => by simp [sanitizedFields, hiddenInFields]
  | (key, child) :: fields => by
    rw [sanitizedFields, hiddenInFields, List.cons.injEq, sanitizedFields_eq_self_iff fields,
      List.forall_mem_append, Prod.mk.injEq]
    cases hkey : hidden key child with
    | true => simp [eq_comm]
    | false =>
      rw [if_neg (by simp), if_neg (by simp), sanitized_eq_self_iff child, List.forall_mem_map]
      simp

end

/-- The hidden keys of an array's items, one by one. -/
theorem item_of_hiddenInItems {index : Nat} {items : List Json} {h : List PathStep × Json}
    (hmem : h ∈ hiddenInItems index items) :
    ∃ i item, ∃ h' ∈ hiddenKeys item, h = (.item i :: h'.1, h'.2) := by
  induction items generalizing index with
  | nil => cases hmem
  | cons item items ih =>
    rw [hiddenInItems] at hmem
    rcases List.mem_append.mp hmem with hmem | hmem
    · obtain ⟨h', hin, rfl⟩ := List.mem_map.mp hmem
      exact ⟨index, item, h', hin, rfl⟩
    · exact ih hmem

/-- The hidden keys under a member, one by one. -/
theorem mem_hiddenInFields {fields : List (Bytes × Json)} {h : List PathStep × Json} :
    h ∈ hiddenInFields fields ↔ ∃ key child, (key, child) ∈ fields ∧
      ((hidden key child = true ∧ h = ([.member key], child)) ∨
        (hidden key child = false ∧ ∃ h' ∈ hiddenKeys child, h = (.member key :: h'.1, h'.2))) := by
  rw [hiddenInFields_eq_flatMap, List.mem_flatMap]
  constructor
  · rintro ⟨⟨key, child⟩, hmem, hin⟩
    refine ⟨key, child, hmem, ?_⟩
    rw [hiddenInMember] at hin
    split_ifs at hin with hkey
    · exact .inl ⟨hkey, List.mem_singleton.mp hin⟩
    · obtain ⟨h', hin', rfl⟩ := List.mem_map.mp hin
      exact .inr ⟨by simpa using hkey, h', hin', rfl⟩
  · rintro ⟨key, child, hmem, hin⟩
    refine ⟨(key, child), hmem, ?_⟩
    rw [hiddenInMember]
    rcases hin with ⟨hkey, rfl⟩ | ⟨hkey, h', hin', rfl⟩
    · rw [if_pos hkey]
      exact List.mem_singleton_self _
    · rw [if_neg (by simp [hkey])]
      exact List.mem_map_of_mem hin'

theorem path_ne_nil (node : Json) {h : List PathStep × Json} (hmem : h ∈ hiddenKeys node) :
    h.1 ≠ [] := by
  cases node with
  | arr items =>
    obtain ⟨i, item, h', -, rfl⟩ := item_of_hiddenInItems hmem
    exact List.cons_ne_nil _ _
  | obj fields =>
    rcases mem_hiddenInFields.mp hmem with ⟨key, child, -, ⟨-, rfl⟩ | ⟨-, h', -, rfl⟩⟩ <;>
      exact List.cons_ne_nil _ _
  | _ => cases hmem

/-! ### What comes back -/

/-- Objects as `std::map`s hold them: a providers value and each provider. -/
def Providers (fields : List (Bytes × Json)) : Prop :=
  Assoc.Sorted fields ∧ ∀ name provider, (name, .obj provider) ∈ fields → Assoc.Sorted provider

/-- The key `KeepHiddenKeys` finds for a provider's name. -/
def heldKey (before : List (Bytes × Json)) (name : Bytes) : Option Json :=
  (jsonObject (.obj before) (untilFirst 0 name)).bind (·.get? (lit "api_key"))

/-- Every key is hidden directly in a provider, or is the marker itself; no
provider says what it was renamed from; and one with a key and a NUL in its
name has the key that is held under the name up to there. -/
def RestorableKeys (before fields : List (Bytes × Json)) : Prop :=
  (∀ h ∈ hiddenKeys (.obj fields), h.1.length = 2 ∨ h.2 = .str kRedactedValue) ∧
    (∀ e ∈ fields, e.2.get? (lit "renamed_from") = none) ∧
    ∀ name v, ([.member name, .member (lit "api_key")], v) ∈ hiddenKeys (.obj fields) →
      0 ∈ name → heldKey before name = some v

section Provider

variable {before : List (Bytes × Json)} {name : Bytes} {fields : List (Bytes × Json)}

/-- The keys hidden directly in a provider are its own. -/
theorem mem_hiddenInMember_obj (hname : hidden name (.obj fields) = false) {v : Json} :
    ([.member name, .member (lit "api_key")], v) ∈ hiddenInMember name (.obj fields) ↔
      (lit "api_key", v) ∈ fields ∧ hidden (lit "api_key") v = true := by
  rw [hiddenInMember, if_neg (by simp [hname]), hiddenKeys]
  constructor
  · intro h
    obtain ⟨⟨path, w⟩, hin, heq⟩ := List.mem_map.mp h
    obtain ⟨rfl, rfl⟩ : path = [.member (lit "api_key")] ∧ w = v := by simpa using heq
    obtain ⟨key, child, hchild, ⟨hhidden, heq⟩ | ⟨-, h', hin', heq⟩⟩ := mem_hiddenInFields.mp hin
    · obtain ⟨rfl, rfl⟩ : lit "api_key" = key ∧ w = child := by simpa using heq
      exact ⟨hchild, hhidden⟩
    · have hnil : h'.1 = [] := by
        have := congrArg (fun p => p.1.length) heq
        simpa using this
      exact absurd hnil (path_ne_nil child hin')
  · rintro ⟨hmem, hhidden⟩
    exact List.mem_map_of_mem
      (mem_hiddenInFields.mpr ⟨lit "api_key", v, hmem, .inl ⟨hhidden, rfl⟩⟩)

/-- What is no provider hides no key directly in it. -/
theorem not_mem_hiddenInMember {provider v : Json} (h : provider.isObject = false) :
    ([.member name, .member (lit "api_key")], v) ∉ hiddenInMember name provider := by
  intro hmem
  unfold hiddenInMember at hmem
  split_ifs at hmem
  · cases List.mem_singleton.mp hmem
  · obtain ⟨⟨path, w⟩, hin, heq⟩ := List.mem_map.mp hmem
    cases provider with
    | arr items =>
      obtain ⟨i, item, h', -, hpath⟩ := item_of_hiddenInItems hin
      rw [hpath] at heq
      cases heq
    | obj fields => cases h
    | _ => cases hin

/-- What a member hides is under its name. -/
theorem name_of_mem_hiddenInMember {key : Bytes} {provider v : Json} {path : List PathStep}
    (h : (.member name :: path, v) ∈ hiddenInMember key provider) : name = key := by
  unfold hiddenInMember at h
  split_ifs at h
  · exact PathStep.member.inj (List.cons.inj (Prod.mk.inj (List.mem_singleton.mp h)).1).1
  · obtain ⟨h', -, heq⟩ := List.mem_map.mp h
    exact (PathStep.member.inj (List.cons.inj (Prod.mk.inj heq).1).1).symm

theorem hiddenKeys_obj (fields : List (Bytes × Json)) :
    hiddenKeys (.obj fields) = fields.flatMap fun e => hiddenInMember e.1 e.2 := by
  rw [hiddenKeys, hiddenInFields_eq_flatMap]

/-- A key hidden directly in a held provider is found there, if its name is
looked up whole. -/
theorem held_key (hbefore : Providers before) {v : Json}
    (h : ([.member name, .member (lit "api_key")], v) ∈ hiddenKeys (.obj before))
    (hname : 0 ∉ name) : heldKey before name = some v := by
  rw [hiddenKeys_obj] at h
  obtain ⟨⟨key, provider⟩, hprovider, hin⟩ := List.mem_flatMap.mp h
  obtain rfl := name_of_mem_hiddenInMember hin
  cases hobject : provider.isObject with
  | false => exact absurd hin (not_mem_hiddenInMember hobject)
  | true =>
    obtain ⟨fields, rfl⟩ : ∃ fields, provider = .obj fields := by
      cases provider <;> simp_all [isObject]
    have hshown : hidden name (.obj fields) = false := by
      by_contra hhidden
      rw [hiddenInMember, if_pos (by simpa using hhidden)] at hin
      cases List.mem_singleton.mp hin
    have hkept := Assoc.lookup_of_mem (hbefore.2 name fields hprovider)
      ((mem_hiddenInMember_obj hshown).mp hin).1
    rw [heldKey, untilFirst_eq_self hname, jsonObject, get?_obj, Assoc.lookup_of_mem hbefore.1 hprovider]
    exact hkept

/-- A provider with its own key kept and everything else as it is shown. -/
def keptFields (fields : List (Bytes × Json)) : List (Bytes × Json) :=
  fields.map fun e => (e.1, if e.1 = lit "api_key" then e.2 else sanitized e.2)

/-- Kept again, a provider is itself just when it hides nothing deeper. -/
theorem keptFields_eq_self_iff :
    keptFields fields = fields ↔
      ∀ key child, (key, child) ∈ fields → key ≠ lit "api_key" →
        ∀ h ∈ hiddenKeys child, h.2 = .str kRedactedValue := by
  have hmap : keptFields fields = fields ↔ ∀ e ∈ fields,
      (e.1, if e.1 = lit "api_key" then e.2 else sanitized e.2) = e := by
    conv_lhs => rhs; rw [← List.map_id fields]
    exact List.map_inj_left
  rw [hmap]
  constructor
  · intro h key child hmem hkey
    have hfixed := h (key, child) hmem
    rw [if_neg hkey] at hfixed
    exact (sanitized_eq_self_iff child).mp (Prod.mk.inj hfixed).2
  · rintro h ⟨key, child⟩ hmem
    by_cases hkey : key = lit "api_key"
    · rw [if_pos hkey]
    · rw [if_neg hkey, (sanitized_eq_self_iff child).mpr (h key child hmem hkey)]

theorem shownMember_of_ne {key : Bytes} (h : key ≠ lit "api_key") (child : Json) :
    shownMember key child = sanitized child := by
  rw [shownMember, if_neg fun hhidden => h (key_of_hidden hhidden)]

theorem lookup_sanitizedFields (key : Bytes) :
    Assoc.lookup key (sanitizedFields fields) = (Assoc.lookup key fields).map (shownMember key) := by
  rw [sanitizedFields_eq_map]
  induction fields with
  | nil => rfl
  | cons e fields ih =>
    rw [List.map_cons, Assoc.lookup_cons, Assoc.lookup_cons, ih]
    split_ifs with hkey
    · rw [← hkey]
      rfl
    · rfl

/-- Without a hidden key of its own a provider is kept as it is shown. -/
theorem sanitizedFields_eq_keptFields
    (h : ∀ v, (lit "api_key", v) ∈ fields → sanitized v = v ∧ hidden (lit "api_key") v = false) :
    sanitizedFields fields = keptFields fields := by
  rw [sanitizedFields_eq_map, keptFields]
  refine List.map_congr_left fun e hmem => ?_
  obtain ⟨key, child⟩ := e
  by_cases hkey : key = lit "api_key"
  · subst hkey
    obtain ⟨hsame, hshown⟩ := h child hmem
    simp [shownMember, hshown, hsame]
  · simp [shownMember_of_ne hkey, hkey]

/-- Putting the key back makes up for hiding it. -/
theorem insert_sanitizedFields (hsorted : Assoc.Sorted fields) {v : Json}
    (hmem : (lit "api_key", v) ∈ fields) :
    Assoc.insert (lit "api_key") v (sanitizedFields fields) = keptFields fields := by
  induction fields with
  | nil => cases hmem
  | cons e fields ih =>
    obtain ⟨key, child⟩ := e
    simp only [Assoc.Sorted, List.map_cons, List.pairwise_cons] at hsorted
    obtain ⟨hfirst, hrest⟩ := hsorted
    rw [sanitizedFields, keptFields, List.map_cons, Assoc.insert]
    by_cases hkey : key = lit "api_key"
    · subst hkey
      have hlater : ∀ w, (lit "api_key", w) ∉ fields := fun w hw =>
        irrefl_of (· < ·) _ (hfirst _ (List.mem_map_of_mem hw))
      have hv : v = child := by
        rcases List.mem_cons.mp hmem with heq | hw
        · exact (Prod.mk.inj heq).2
        · exact absurd hw (hlater v)
      rw [if_pos rfl, if_pos rfl, hv, sanitizedFields_eq_keptFields fun w hw => absurd hw (hlater w)]
      rfl
    · have hin : (lit "api_key", v) ∈ fields := by
        rcases List.mem_cons.mp hmem with heq | hw
        · exact absurd (Prod.mk.inj heq).1.symm hkey
        · exact hw
      have hlt : key < lit "api_key" := hfirst _ (List.mem_map_of_mem hin)
      have hnot : ¬lit "api_key" < key := fun hgt =>
        irrefl_of (· < ·) key (IsTrans.trans _ _ _ hlt hgt)
      have hchild : (if hidden key child = true then .str kRedactedValue else sanitized child) =
          sanitized child := shownMember_of_ne hkey child
      rw [if_neg hkey, if_neg hnot, ih hrest hin, if_neg hkey, hchild]
      rfl

/-- What comes back never says what it was renamed from. -/
theorem renamed_from_of_keepProvider {provider kept : Json}
    (h : keepProvider (.obj before) name provider = .ok kept) :
    kept.get? (lit "renamed_from") = none := by
  simp only [keepProvider] at h
  have hgone := get?_erase provider (lit "renamed_from") (lit "renamed_from")
  rw [if_pos rfl] at hgone
  split_ifs at h with hobject hshown
  · obtain rfl := Except.ok.inj h
    cases provider <;> first | rfl | simp at hobject
  · obtain rfl := Except.ok.inj h
    exact hgone
  · split at h
    · obtain rfl := Except.ok.inj h
      rw [get?_set_ne _ _ (by decide), hgone]
    · cases h

/-- A shown provider without `renamed_from` is kept under its own name. -/
theorem keepProvider_sanitized (hrenamed : Assoc.lookup (lit "renamed_from") fields = none) :
    keepProvider (.obj before) name (.obj (sanitizedFields fields)) =
      if jsonValueStr (.obj (sanitizedFields fields)) (lit "api_key") [] ≠ kRedactedValue then
        .ok (.obj (sanitizedFields fields))
      else
        (heldKey before name).elim (.error (lit "enter the key for provider " ++ name))
          fun key => .ok ((Json.obj (sanitizedFields fields)).set (lit "api_key") key) := by
  have hwas : jsonValueStr (.obj (sanitizedFields fields)) (lit "renamed_from") name = name := by
    simp [jsonValueStr, lookup_sanitizedFields, hrenamed]
  have herase : (Json.obj (sanitizedFields fields)).erase (lit "renamed_from") =
      .obj (sanitizedFields fields) := by
    have hnone : lit "renamed_from" ∉ (sanitizedFields fields).map Prod.fst := by
      rw [← Assoc.lookup_eq_none, lookup_sanitizedFields, hrenamed]
      rfl
    rw [Json.erase, Assoc.erase_eq_self hnone]
  simp only [keepProvider, isObject_obj, Bool.not_true, Bool.false_eq_true, ↓reduceIte, hwas, herase,
    heldKey]
  split_ifs
  · rfl
  · cases (jsonObject (.obj before) (untilFirst 0 name)).bind (·.get? (lit "api_key")) <;> rfl

/-- A hidden key is shown as the marker. -/
theorem jsonValueStr_of_hidden {v : Json} (hkey : Assoc.lookup (lit "api_key") fields = some v)
    (hhidden : hidden (lit "api_key") v = true) :
    jsonValueStr (.obj (sanitizedFields fields)) (lit "api_key") [] = kRedactedValue := by
  simp [jsonValueStr, lookup_sanitizedFields, hkey, shownMember, hhidden]

/-- A provider that comes back as it was had its key held. -/
theorem heldKey_of_keepProvider (hsorted : Assoc.Sorted fields)
    (hrenamed : Assoc.lookup (lit "renamed_from") fields = none)
    (hkept : keepProvider (.obj before) name (.obj (sanitizedFields fields)) = .ok (.obj fields))
    {v : Json} (hmem : (lit "api_key", v) ∈ fields) (hhidden : hidden (lit "api_key") v = true) :
    heldKey before name = some v := by
  have hkey := Assoc.lookup_of_mem hsorted hmem
  rw [keepProvider_sanitized hrenamed, jsonValueStr_of_hidden hkey hhidden, if_neg (by simp)] at hkept
  cases hheld : heldKey before name with
  | none =>
    rw [hheld] at hkept
    cases hkept
  | some held =>
    rw [hheld, Option.elim_some] at hkept
    have hget := congrArg (·.get? (lit "api_key")) (Except.ok.inj hkept)
    rw [get?_set (isObject_obj _), if_pos rfl, get?_obj, hkey] at hget
    exact hget

/-- A shown provider without `renamed_from` comes back with its own key. -/
theorem keepProvider_obj (hsorted : Assoc.Sorted fields)
    (hrenamed : Assoc.lookup (lit "renamed_from") fields = none)
    (hheld : ∀ v, (lit "api_key", v) ∈ fields → hidden (lit "api_key") v = true →
      heldKey before name = some v) :
    keepProvider (.obj before) name (.obj (sanitizedFields fields)) = .ok (.obj (keptFields fields)) := by
  rw [keepProvider_sanitized hrenamed]
  cases hkey : Assoc.lookup (lit "api_key") fields with
  | none =>
    have hshown : jsonValueStr (.obj (sanitizedFields fields)) (lit "api_key") [] = [] := by
      simp [jsonValueStr, lookup_sanitizedFields, hkey]
    have hout := Assoc.lookup_eq_none.mp hkey
    rw [hshown, if_pos (by decide),
      sanitizedFields_eq_keptFields fun v hv => absurd (List.mem_map_of_mem hv) hout]
  | some v =>
    have hmem := Assoc.mem_of_lookup hkey
    cases hhidden : hidden (lit "api_key") v with
    | true =>
      -- The marker is shown, and the held key is put in its place.
      rw [jsonValueStr_of_hidden hkey hhidden, if_neg (by simp), hheld v hmem hhidden,
        Option.elim_some, set_obj, insert_sanitizedFields hsorted hmem]
    | false =>
      obtain ⟨value, rfl, href⟩ : ∃ value, v = .str value ∧ environmentReference value = true := by
        cases v <;> simp_all [hidden]
      have hshown : jsonValueStr (.obj (sanitizedFields fields)) (lit "api_key") [] = value := by
        simp [jsonValueStr, lookup_sanitizedFields, hkey, shownMember, hhidden, sanitized]
      -- A reference is shown, and is not the marker.
      have hne : value ≠ kRedactedValue := by
        rintro rfl
        exact absurd href (by decide)
      rw [hshown, if_pos hne, sanitizedFields_eq_keptFields fun w hw => ?_]
      obtain rfl : .str value = w :=
        Option.some.inj (hkey.symm.trans (Assoc.lookup_of_mem hsorted hw))
      exact ⟨rfl, hhidden⟩

/-- A provider that is no object comes back as it is shown. -/
theorem keepProvider_other {provider : Json} (h : provider.isObject = false) :
    keepProvider (.obj before) name provider = .ok provider := by
  rw [keepProvider, if_pos (by simp [h])]

/-- Of what a provider hides, only its own key stands two steps down. -/
theorem forall_hiddenInMember_iff (hname : hidden name (.obj fields) = false) :
    (∀ h ∈ hiddenInMember name (.obj fields), h.1.length = 2 ∨ h.2 = .str kRedactedValue) ↔
      ∀ key child, (key, child) ∈ fields → key ≠ lit "api_key" →
        ∀ h ∈ hiddenKeys child, h.2 = .str kRedactedValue := by
  rw [hiddenInMember, if_neg (by simp [hname]), List.forall_mem_map, hiddenKeys]
  constructor
  · intro h key child hmem hkey h' hin
    have hshown : hidden key child = false := by
      by_contra hhidden
      exact hkey (key_of_hidden (by simpa using hhidden))
    have hpath := List.length_pos_iff.mpr (path_ne_nil child hin)
    rcases h _ (mem_hiddenInFields.mpr ⟨key, child, hmem, .inr ⟨hshown, h', hin, rfl⟩⟩) with hlen | hv
    · simp only [List.length_cons] at hlen
      omega
    · exact hv
  · intro h h' hin
    obtain ⟨key, child, hmem, ⟨-, rfl⟩ | ⟨hshown, h'', hin', rfl⟩⟩ := mem_hiddenInFields.mp hin
    · exact .inl rfl
    · refine .inr (h key child hmem ?_ h'' hin')
      rintro rfl
      cases child <;> simp_all [hidden, hiddenKeys]

/-- What a list of providers hides stands at least three steps down. -/
theorem forall_hidden_other_iff {provider : Json} (h : provider.isObject = false) (key : Bytes) :
    (∀ h ∈ hiddenKeys provider, (PathStep.member key :: h.1).length = 2 ∨ h.2 = .str kRedactedValue) ↔
      ∀ h ∈ hiddenKeys provider, h.2 = .str kRedactedValue := by
  refine forall₂_congr fun h' hin => or_iff_right ?_
  cases provider with
  | arr items =>
    obtain ⟨i, item, h'', hin', rfl⟩ := item_of_hiddenInItems hin
    have := List.length_pos_iff.mpr (path_ne_nil item hin')
    simp only [List.length_cons]
    omega
  | obj fields => cases h
  | _ => cases hin

/-- A member of a shown value comes back as it was just when the way out and
back loses nothing in it. -/
theorem keepProvider_iff {provider : Json}
    (hsorted : ∀ fields, provider = .obj fields → Assoc.Sorted fields) :
    keepProvider (.obj before) name (shownMember name provider) = .ok provider ↔
      (∀ h ∈ hiddenInMember name provider, h.1.length = 2 ∨ h.2 = .str kRedactedValue) ∧
        provider.get? (lit "renamed_from") = none ∧
        ∀ v, ([.member name, .member (lit "api_key")], v) ∈ hiddenInMember name provider →
          heldKey before name = some v := by
  cases hname : hidden name provider with
  | true =>
    -- A key at the top is shown as the marker, and that is what comes back.
    rw [shownMember, if_pos hname, keepProvider_other rfl, hiddenInMember, if_pos hname]
    constructor
    · intro h
      obtain rfl := Except.ok.inj h
      refine ⟨by simp, rfl, fun v hv => ?_⟩
      cases List.mem_singleton.mp hv
    · rintro ⟨h, -⟩
      have hmarker := h _ (List.mem_singleton_self _)
      rw [List.length_singleton] at hmarker
      exact congrArg Except.ok (hmarker.resolve_left (by simp)).symm
  | false =>
    rw [shownMember, if_neg (by simp [hname])]
    by_cases hobject : provider.isObject = true
    · obtain ⟨fields, rfl⟩ : ∃ fields, provider = .obj fields := by
        cases provider <;> simp_all [isObject]
      simp only [mem_hiddenInMember_obj hname, get?_obj, forall_hiddenInMember_iff hname, sanitized,
        ← keptFields_eq_self_iff]
      constructor
      · intro h
        have hrenamed := renamed_from_of_keepProvider h
        have hheld := fun v (hv : (lit "api_key", v) ∈ fields) hhidden =>
          heldKey_of_keepProvider (hsorted fields rfl) hrenamed h hv hhidden
        rw [keepProvider_obj (hsorted fields rfl) hrenamed hheld] at h
        exact ⟨Json.obj.inj (Except.ok.inj h), hrenamed, fun v hv => hheld v hv.1 hv.2⟩
      · rintro ⟨hkept, hrenamed, hheld⟩
        rw [keepProvider_obj (hsorted fields rfl) hrenamed fun v hv hhidden => hheld v ⟨hv, hhidden⟩,
          hkept]
    · rw [Bool.not_eq_true] at hobject
      -- What is no object is taken as it is shown.
      have hplain : provider.get? (lit "renamed_from") = none := by
        cases provider <;> first | rfl | simp at hobject
      have hshown : (sanitized provider).isObject = false := by
        cases provider <;> first | rfl | simp at hobject
      have hown : ∀ v, ([.member name, .member (lit "api_key")], v) ∈ hiddenInMember name provider →
          heldKey before name = some v := fun v hv => absurd hv (not_mem_hiddenInMember hobject)
      rw [keepProvider_other hshown, and_iff_left ⟨hplain, hown⟩, hiddenInMember,
        if_neg (by simp [hname]), List.forall_mem_map, Except.ok.injEq, sanitized_eq_self_iff]
      exact (forall_hidden_other_iff hobject name).symm

end Provider

/-- The providers come back one by one. -/
theorem keepProviders_eq_iff {before wanted : List (Bytes × Json)} (f : Bytes → Json → Json) :
    keepProviders (.obj before) (wanted.map fun e => (e.1, f e.1 e.2)) = .ok wanted ↔
      ∀ e ∈ wanted, keepProvider (.obj before) e.1 (f e.1 e.2) = .ok e.2 := by
  induction wanted with
  | nil => simp [keepProviders]
  | cons e wanted ih =>
    rw [List.map_cons, keepProviders, List.forall_mem_cons, ← ih]
    cases keepProvider (.obj before) e.1 (f e.1 e.2) with
    | error error => simp [bind, Except.bind]
    | ok provider =>
      cases keepProviders (.obj before) (wanted.map fun e => (e.1, f e.1 e.2)) with
      | error error => simp [bind, Except.bind]
      | ok providers =>
        obtain ⟨name, own⟩ := e
        simp [bind, Except.bind]

/-- What a value needs, provider by provider: the keys under names without a
NUL are held where they were left. -/
theorem restorableKeys_iff {before wanted : List (Bytes × Json)} (hbefore : Providers before)
    (hleft : ∀ h ∈ hiddenKeys (.obj wanted), h ∈ hiddenKeys (.obj before)) :
    (∀ e ∈ wanted,
        (∀ h ∈ hiddenInMember e.1 e.2, h.1.length = 2 ∨ h.2 = .str kRedactedValue) ∧
          e.2.get? (lit "renamed_from") = none ∧
          ∀ v, ([.member e.1, .member (lit "api_key")], v) ∈ hiddenInMember e.1 e.2 →
            heldKey before e.1 = some v) ↔
      RestorableKeys before wanted := by
  constructor
  · intro h
    refine ⟨?_, fun e he => (h e he).2.1, fun name v hv _ => ?_⟩
    · rw [hiddenKeys_obj, List.forall_mem_flatMap]
      exact fun e he => (h e he).1
    · rw [hiddenKeys_obj] at hv
      obtain ⟨e, he, hv⟩ := List.mem_flatMap.mp hv
      obtain rfl := name_of_mem_hiddenInMember hv
      exact (h e he).2.2 v hv
  · rintro ⟨hdeep, hrenamed, hnul⟩ e he
    rw [hiddenKeys_obj, List.forall_mem_flatMap] at hdeep
    refine ⟨hdeep e he, hrenamed e he, fun v hv => ?_⟩
    have hmem : ([.member e.1, .member (lit "api_key")], v) ∈ hiddenKeys (.obj wanted) := by
      rw [hiddenKeys_obj]
      exact List.mem_flatMap.mpr ⟨e, he, hv⟩
    by_cases hcut : 0 ∈ e.1
    · exact hnul e.1 v hmem hcut
    · exact held_key hbefore (hleft _ hmem) hcut

/-- What is shown for an object, and which object it is the text of. -/
theorem sanitizeCompositeValue_spec [DoubleText] {parse : Bytes → Option Json} {held : Bytes}
    {before : List (Bytes × Json)} (hheld : parse held = some (.obj before)) :
    sanitizeCompositeValue parse held = dump (sanitized (.obj before)) ∨
      (sanitizeCompositeValue parse held = held ∧ sanitized (.obj before) = .obj before) := by
  rw [sanitizeCompositeValue, hheld]
  simp only [sanitizeCompositeNode_eq, Bool.false_or]
  by_cases hnone : hiddenKeys (.obj before) = []
  · refine .inr ⟨by simp [hnone], (sanitized_eq_self_iff _).mpr fun h hmem => ?_⟩
    rw [hnone] at hmem
    cases hmem
  · left
    rw [if_pos]
    simpa using hnone

/-- A providers value that was edited on the screen, its hidden keys left as
they were shown, comes back as the same edit of what is held just when its keys
are hidden directly in providers, under names that are looked up whole, and no
provider holds a `renamed_from`; and what is shown never is a key. -/
theorem hidden_keys_kept_iff [DoubleText] {parse : Bytes → Option Json} {held edited : Bytes}
    {before wanted : List (Bytes × Json)} (hheld : parse held = some (.obj before))
    (hbefore : Providers before) (hwanted : Providers wanted)
    (hedited : parse edited = some (sanitized (.obj wanted)))
    (hleft : ∀ h ∈ hiddenKeys (.obj wanted), h ∈ hiddenKeys (.obj before)) :
    (keepHiddenKeys parse edited held = .stored (.obj wanted) ∧
      ∃ shown, (sanitizeCompositeValue parse held = dump shown ∨
          (sanitizeCompositeValue parse held = held ∧ shown = .obj before)) ∧
        ∀ h ∈ hiddenKeys shown, h.2 = .str kRedactedValue) ↔
      RestorableKeys before wanted := by
  have hshown : ∃ shown, (sanitizeCompositeValue parse held = dump shown ∨
      (sanitizeCompositeValue parse held = held ∧ shown = .obj before)) ∧
      ∀ h ∈ hiddenKeys shown, h.2 = .str kRedactedValue :=
    ⟨sanitized (.obj before), sanitizeCompositeValue_spec hheld, marker_of_hiddenKeys_sanitized _⟩
  have hkept : keepHiddenKeys parse edited held = .stored (.obj wanted) ↔
      keepProviders (.obj before) (sanitizedFields wanted) = .ok wanted := by
    rw [keepHiddenKeys, hedited, hheld, sanitized, Option.getD_some]
    cases hkeep : keepProviders (.obj before) (sanitizedFields wanted) <;> simp [hkeep]
  rw [and_iff_left hshown, hkept, sanitizedFields_eq_map, keepProviders_eq_iff shownMember]
  rw [forall₂_congr fun e hmem =>
    keepProvider_iff fun fields hfields => hwanted.2 e.1 fields (hfields ▸ hmem)]
  exact restorableKeys_iff hbefore hleft

/-- A parser of the texts of two values. -/
def parseTwo [DoubleText] (a b : Json) (text : Bytes) : Option Json :=
  if text = dump a then some a else if text = dump b then some b else none

/-- A provider with a key of its own, and one with an address in it. -/
def labProvider (address : Bytes) : List (Bytes × Json) :=
  [(lit "lab", .obj [(lit "api_key", .str (lit "s3cret")), (lit "base_url", .str address)])]

theorem hidden_keys_kept_lab :
    letI := bitsText
    (keepHiddenKeys
        (parseTwo (.obj (labProvider (lit "https://a"))) (sanitized (.obj (labProvider (lit "https://b")))))
        (dump (sanitized (.obj (labProvider (lit "https://b")))))
        (dump (.obj (labProvider (lit "https://a")))) = .stored (.obj (labProvider (lit "https://b"))) ∧
      ∃ shown, (sanitizeCompositeValue (parseTwo (.obj (labProvider (lit "https://a")))
            (sanitized (.obj (labProvider (lit "https://b")))))
            (dump (.obj (labProvider (lit "https://a")))) = dump shown ∨
          (sanitizeCompositeValue (parseTwo (.obj (labProvider (lit "https://a")))
            (sanitized (.obj (labProvider (lit "https://b")))))
            (dump (.obj (labProvider (lit "https://a")))) = dump (.obj (labProvider (lit "https://a"))) ∧
            shown = .obj (labProvider (lit "https://a")))) ∧
        ∀ h ∈ hiddenKeys shown, h.2 = .str kRedactedValue) ↔
      RestorableKeys (labProvider (lit "https://a")) (labProvider (lit "https://b")) := by
  let _ := bitsText
  refine hidden_keys_kept_iff (if_pos rfl) ⟨by decide, ?_⟩ ⟨by decide, ?_⟩ (by decide) (by decide) <;>
  · intro name provider h
    obtain ⟨rfl, heq⟩ : name = lit "lab" ∧ _ := by simpa [labProvider] using h
    subst heq
    decide

/-- A provider that keeps a key for one of its models. -/
def modelKeyProvider : Json :=
  .obj [(lit "lab", .obj [(lit "models", .obj [(lit "m", .obj [(lit "api_key", .str (lit "s3cret"))])])])]

/-- Shown and saved without an edit, the key of a model is the marker. -/
theorem model_key_lost :
    letI := bitsText
    let parse := parseTwo modelKeyProvider (sanitized modelKeyProvider)
    parse (dump modelKeyProvider) = some modelKeyProvider ∧
      parse (sanitizeCompositeValue parse (dump modelKeyProvider)) = some (sanitized modelKeyProvider) ∧
      keepHiddenKeys parse (sanitizeCompositeValue parse (dump modelKeyProvider)) (dump modelKeyProvider) =
        .stored (sanitized modelKeyProvider) ∧
      sanitized modelKeyProvider ≠ modelKeyProvider := by
  decide

/-- Under a name with a NUL no key is found. -/
example : keepProvider (.obj [([0x61, 0, 0x62], .obj [(lit "api_key", .str (lit "s3cret"))])])
    [0x61, 0, 0x62] (.obj [(lit "api_key", .str kRedactedValue)]) =
      .error (lit "enter the key for provider " ++ [0x61, 0, 0x62]) := by
  decide

end UAgent
