/-
UAgent/Core/Json.lean

The JSON access helpers of include/core/json.h: typed lookups that return
their fallback rather than fail on a missing key or a wrong type, and the
estimate of a value's size that context accounting and the display-fact
budget are built on (with the saturating sum of include/core/checked.h).
-/
import UAgent.Base.JsonText

namespace UAgent

open Bytes

/-! ### Overflow-safe sums -/

/-- The largest `size_t`. -/
def sizeMax : Nat := 2 ^ 64 - 1

/-- `SaturatingAdd`. -/
def saturatingAdd (left right : Nat) : Nat := min (left + right) sizeMax

theorem saturatingAdd_of_le {a b : Nat} (h : a + b ≤ sizeMax) : saturatingAdd a b = a + b :=
  min_eq_left h

theorem saturatingAdd_le (a b : Nat) : saturatingAdd a b ≤ a + b := min_le_left _ _

/-! ### Typed lookups -/

/-- `JsonValue(object, key, bool)`. -/
def jsonValueBool (object : Json) (key : Bytes) (fallback : Bool := false) : Bool :=
  match object.get? key with
  | some (.bool b) => b
  | _ => fallback

/-- `JsonValue(object, key, Integer)` for an integer type holding `lo` to
`hi`: a number outside it is the fallback. -/
def jsonValueInteger (lo hi : Int) (object : Json) (key : Bytes) (fallback : Int) : Int :=
  match object.get? key with
  | some (.uint n) => if (n.toNat : Int) ≤ hi then n.toNat else fallback
  | some (.int n) => if n.toInt < lo ∨ hi < n.toInt then fallback else n.toInt
  | _ => fallback

/-- `JsonValue(object, key, int64_t)`. -/
def jsonValueInt64 : Json → Bytes → Int → Int := jsonValueInteger (-2 ^ 63) (2 ^ 63 - 1)

/-- `JsonValue(object, key, uint64_t)`. -/
def jsonValueUint64 (object : Json) (key : Bytes) (fallback : Nat) : Nat :=
  (jsonValueInteger 0 (2 ^ 64 - 1) object key fallback).toNat

/-- `JsonValue(object, key, std::string)`. -/
def jsonValueStr (object : Json) (key : Bytes) (fallback : Bytes) : Bytes :=
  match object.get? key with
  | some (.str s) => s
  | _ => fallback

/-- `JsonValue(object, key, json)`. -/
def jsonValue (object : Json) (key : Bytes) (fallback : Json) : Json :=
  (object.get? key).getD fallback

/-- `JsonStringRef`. -/
def jsonStringRef (object : Json) (key : Bytes) : Option Bytes :=
  match object.get? key with
  | some (.str s) => some s
  | _ => none

/-- `JsonObject`: a nested object. -/
def jsonObject (object : Json) (key : Bytes) : Option Json :=
  match object.get? key with
  | some (.obj fields) => some (.obj fields)
  | _ => none

/-- `JsonArray`: the items of a nested array. -/
def jsonArray (object : Json) (key : Bytes) : Option (List Json) :=
  match object.get? key with
  | some (.arr items) => some items
  | _ => none

/-- `ContentText`: a message's string content, or the non-empty text parts of
its content array joined by `separator`. -/
def contentText (message : Json) (separator : Bytes) : Bytes :=
  match jsonArray message (lit "content") with
  | some parts =>
    parts.foldl (fun text part =>
      if jsonValueStr part (lit "type") [] ≠ lit "text" then text
      else
        match jsonStringRef part (lit "text") with
        | none | some [] => text
        | some words => (if text = [] then text else text ++ separator) ++ words) []
  | none => jsonValueStr message (lit "content") []

/-! ### Estimated size -/

mutual

/-- `JsonEstimatedBytes`. -/
def jsonEstimatedBytes : Json → Nat
  | .str s => saturatingAdd s.length 2
  | .arr items => estimatedItems 16 items
  | .obj fields => estimatedFields 16 fields
  | _ => 16

/-- The running total over an array's items. -/
def estimatedItems (total : Nat) : List Json → Nat
  | [] => total
  | item :: items => estimatedItems (saturatingAdd total (jsonEstimatedBytes item)) items

/-- The running total over an object's members. -/
def estimatedFields (total : Nat) : List (Bytes × Json) → Nat
  | [] => total
  | (key, item) :: fields =>
    estimatedFields (saturatingAdd (saturatingAdd total key.length) (jsonEstimatedBytes item))
      fields

end

/-- An array's estimate is the sum of its items' as far as it can be held. -/
theorem estimatedItems_eq {total : Nat} (items : List Json) (htotal : total ≤ sizeMax) :
    estimatedItems total items = saturatingAdd total (items.map jsonEstimatedBytes).sum := by
  induction items generalizing total with
  | nil => simp [estimatedItems, saturatingAdd, htotal]
  | cons item items ih =>
    have hsum : saturatingAdd total (jsonEstimatedBytes item) ≤ sizeMax := min_le_right _ _
    rw [estimatedItems, ih hsum, List.map_cons, List.sum_cons]
    simp only [saturatingAdd]
    omega

/-- An estimate is below a bound when the sum of its members' sizes is: it
only saturates far above. -/
theorem estimatedFields_le_iff {total bound : Nat} (fields : List (Bytes × Json))
    (hbound : bound < sizeMax) (htotal : total ≤ sizeMax) :
    estimatedFields total fields ≤ bound ↔
      total + (fields.map fun e => saturatingAdd (jsonEstimatedBytes e.2) e.1.length).sum ≤
        bound := by
  induction fields generalizing total with
  | nil => simp [estimatedFields]
  | cons e fields ih =>
    obtain ⟨key, item⟩ := e
    have hsum : saturatingAdd (saturatingAdd total key.length) (jsonEstimatedBytes item) ≤
        sizeMax := min_le_right _ _
    rw [estimatedFields, ih hsum, List.map_cons, List.sum_cons]
    simp only [saturatingAdd]
    omega

end UAgent
