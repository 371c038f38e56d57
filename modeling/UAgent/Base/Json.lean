/-
UAgent/Base/Json.lean

JSON values as nlohmann's `json` holds them: three number types, byte
strings with no promised encoding, and objects that are `std::map`s, here
association lists kept in key order by `insert`.

Equality comes in two strengths.  `DecidableEq` is identity of the held
value; `Json.eqv` is `operator==`, which compares a number with a number of
another type by converting it (`1 == 1.0`, and `-1 == 18446744073709551615`
through the cast to a signed integer).  A program that uses `operator==` to
decide whether two values are the same text is therefore deciding something
weaker, and the gap between the two is visible here.
-/
import UAgent.Base.Bytes
import Mathlib.Data.List.Pairwise

/-! ### Association lists in key order -/

namespace Assoc

section Lookup

variable {κ β : Type*} [DecidableEq κ]

/-- The value under `k`. -/
def lookup (k : κ) : List (κ × β) → Option β
  | [] => none
  | (j, v) :: m => if j = k then some v else lookup k m

/-- `m.erase(k)`. -/
def erase (k : κ) (m : List (κ × β)) : List (κ × β) := m.filter fun e => e.1 ≠ k

theorem mem_erase {k : κ} {m : List (κ × β)} {e : κ × β} :
    e ∈ erase k m ↔ e ∈ m ∧ e.1 ≠ k := by
  simp [erase]

@[simp] theorem lookup_nil (k : κ) : lookup k ([] : List (κ × β)) = none := rfl

theorem lookup_cons (k j : κ) (v : β) (m : List (κ × β)) :
    lookup k ((j, v) :: m) = if j = k then some v else lookup k m := rfl

theorem lookup_erase (k j : κ) (m : List (κ × β)) :
    lookup j (erase k m) = if j = k then none else lookup j m := by
  induction m with
  | nil => simp [erase]
  | cons e m ih =>
    obtain ⟨i, w⟩ := e
    unfold erase at ih ⊢
    by_cases hi : i = k
    · subst hi
      by_cases hj : j = i
      · simpa [hj] using ih
      · simpa [hj, lookup_cons, Ne.symm hj] using ih
    · by_cases hij : i = j
      · subst hij; simp [hi, lookup_cons]
      · simpa [hi, lookup_cons, hij] using ih

/-- Erasing commutes with a change of the values. -/
theorem map_erase {γ : Type*} (f : κ → β → γ) (k : κ) (m : List (κ × β)) :
    (erase k m).map (fun e => (e.1, f e.1 e.2)) = erase k (m.map fun e => (e.1, f e.1 e.2)) := by
  rw [erase, erase, List.filter_map]
  rfl

theorem mem_of_lookup {k : κ} {v : β} {m : List (κ × β)} (h : lookup k m = some v) :
    (k, v) ∈ m := by
  induction m with
  | nil => cases h
  | cons e m ih =>
    obtain ⟨j, w⟩ := e
    rw [lookup_cons] at h
    split_ifs at h with hj
    · obtain rfl := Option.some.inj h
      rw [hj]; exact List.mem_cons_self
    · exact List.mem_cons_of_mem _ (ih h)

theorem lookup_eq_none {k : κ} {m : List (κ × β)} : lookup k m = none ↔ k ∉ m.map Prod.fst := by
  induction m with
  | nil => simp
  | cons e m ih =>
    obtain ⟨j, w⟩ := e
    by_cases hj : j = k
    · simp [lookup_cons, hj]
    · simp [lookup_cons, hj, ih, Ne.symm hj]

end Lookup

section Order

variable {κ β : Type*} [LT κ]

/-- Keys strictly increase, as a `std::map` iterates them. -/
def Sorted (m : List (κ × β)) : Prop := (m.map Prod.fst).Pairwise (· < ·)

instance [DecidableLT κ] (m : List (κ × β)) : Decidable (Sorted m) := by
  unfold Sorted; infer_instance

theorem sorted_erase [DecidableEq κ] {m : List (κ × β)} (h : Sorted m) (k : κ) :
    Sorted (erase k m) :=
  h.sublist (List.filter_sublist.map _)

end Order

section Insert

variable {κ β : Type*} [DecidableEq κ] [LT κ] [DecidableLT κ]

/-- `m[k] = v`: replaces what `k` holds, or goes in before the first greater
key. -/
def insert (k : κ) (v : β) : List (κ × β) → List (κ × β)
  | [] => [(k, v)]
  | (j, w) :: m =>
    if j = k then (k, v) :: m
    else if k < j then (k, v) :: (j, w) :: m
    else (j, w) :: insert k v m

@[simp] theorem lookup_insert_self (k : κ) (v : β) (m : List (κ × β)) :
    lookup k (insert k v m) = some v := by
  induction m with
  | nil => simp [insert, lookup_cons]
  | cons e m ih =>
    obtain ⟨j, w⟩ := e
    by_cases hj : j = k
    · simp [insert, hj, lookup_cons]
    · by_cases hlt : k < j <;> simp [insert, hj, hlt, lookup_cons, ih]

theorem lookup_insert_ne {k j : κ} (h : j ≠ k) (v : β) (m : List (κ × β)) :
    lookup j (insert k v m) = lookup j m := by
  induction m with
  | nil => simp [insert, lookup_cons, Ne.symm h]
  | cons e m ih =>
    obtain ⟨i, w⟩ := e
    by_cases hi : i = k
    · simp [insert, hi, lookup_cons, Ne.symm h]
    · by_cases hlt : k < i
      · simp [insert, hi, hlt, lookup_cons, Ne.symm h]
      · simp [insert, hi, hlt, lookup_cons, ih]

theorem lookup_insert (k j : κ) (v : β) (m : List (κ × β)) :
    lookup j (insert k v m) = if j = k then some v else lookup j m := by
  split_ifs with h
  · rw [h, lookup_insert_self]
  · exact lookup_insert_ne h v m

theorem mem_keys_insert {k j : κ} {v : β} {m : List (κ × β)} :
    j ∈ (insert k v m).map Prod.fst ↔ j = k ∨ j ∈ m.map Prod.fst := by
  rw [← not_iff_not, not_or, ← lookup_eq_none, ← lookup_eq_none, lookup_insert]
  split_ifs with h <;> simp [h]

theorem mem_insert_self (k : κ) (v : β) (m : List (κ × β)) : (k, v) ∈ insert k v m :=
  mem_of_lookup (lookup_insert_self k v m)

/-- Writing a key leaves the entries of the others. -/
theorem mem_insert_of_ne {k j : κ} {v w : β} {m : List (κ × β)} (hm : (j, w) ∈ m) (h : j ≠ k) :
    (j, w) ∈ insert k v m := by
  induction m with
  | nil => exact absurd hm List.not_mem_nil
  | cons e m ih =>
    rw [insert]
    rcases List.mem_cons.mp hm with rfl | hm
    · rw [if_neg h]
      split_ifs <;> simp
    · split_ifs
      · exact List.mem_cons_of_mem _ hm
      · exact List.mem_cons_of_mem _ (List.mem_cons_of_mem _ hm)
      · exact List.mem_cons_of_mem _ (ih hm)

/-- What a map holds after a write was written or there before. -/
theorem eq_or_mem_of_mem_insert {k : κ} {v : β} {m : List (κ × β)} {e : κ × β}
    (h : e ∈ insert k v m) : e = (k, v) ∨ e ∈ m := by
  induction m with
  | nil => exact .inl (by simpa [insert] using h)
  | cons e' m ih =>
    rw [insert] at h
    split_ifs at h
    · rcases List.mem_cons.mp h with h | h
      · exact .inl h
      · exact .inr (List.mem_cons_of_mem _ h)
    · exact List.mem_cons.mp h
    · rcases List.mem_cons.mp h with h | h
      · exact .inr (h ▸ List.mem_cons_self)
      · exact (ih h).imp_right (List.mem_cons_of_mem _)

/-- Writing what another write left there changes nothing. -/
theorem insert_insert_of_fixed [IsStrictTotalOrder κ (· < ·)] {k j : κ} {v : β} {m : List (κ × β)}
    (h : insert k v m = m) (hne : j ≠ k) (w : β) : insert k v (insert j w m) = insert j w m := by
  induction m with
  | nil => cases h
  | cons e m ih =>
    obtain ⟨i, u⟩ := e
    rw [insert] at h
    split_ifs at h with hik hki
    · -- `k` is at the head already.
      obtain ⟨⟨rfl, rfl⟩, -⟩ : (k = i ∧ v = u) ∧ True := by simpa using h
      rw [insert, if_neg (Ne.symm hne)]
      split_ifs with hji
      · have hkj : ¬k < j := fun hkj => irrefl_of (· < ·) k (IsTrans.trans _ _ _ hkj hji)
        simp [insert, hne, hkj]
      · simp [insert]
    · exact absurd (congrArg List.length h) (by simp)
    · have hm : insert k v m = m := (List.cons.inj h).2
      rw [insert]
      split_ifs with hij hji
      · subst hij
        simp [insert, hne, hki, hm]
      · have hkj : ¬k < j := fun hkj => hki (IsTrans.trans _ _ _ hkj hji)
        simp [insert, hne, hkj, hik, hki, hm]
      · simp [insert, hik, hki, ih hm]

@[simp] theorem insert_insert_self [IsStrictTotalOrder κ (· < ·)] (k : κ) (v w : β)
    (m : List (κ × β)) : insert k v (insert k w m) = insert k v m := by
  induction m with
  | nil => simp [insert]
  | cons e m ih =>
    obtain ⟨j, u⟩ := e
    rw [insert, insert]
    split_ifs with hj hlt
    · simp [insert]
    · simp [insert]
    · simp [insert, hj, hlt, ih]

/-- A new key only adds its entry. -/
theorem insert_perm {k : κ} {m : List (κ × β)} (h : lookup k m = none) (v : β) :
    (insert k v m).Perm ((k, v) :: m) := by
  induction m with
  | nil => exact .refl _
  | cons e m ih =>
    obtain ⟨j, w⟩ := e
    rw [lookup_cons] at h
    rw [insert]
    split_ifs at h ⊢
    · exact .refl _
    · exact ((ih h).cons (j, w)).trans (.swap _ _ _)

/-- A write commutes with a change of the values. -/
theorem map_insert {γ : Type*} (f : κ → β → γ) (k : κ) (v : β) (m : List (κ × β)) :
    (insert k v m).map (fun e => (e.1, f e.1 e.2)) =
      insert k (f k v) (m.map fun e => (e.1, f e.1 e.2)) := by
  induction m with
  | nil => rfl
  | cons e m ih =>
    obtain ⟨j, u⟩ := e
    simp only [insert, List.map_cons]
    split_ifs
    · rfl
    · rfl
    · rw [List.map_cons, ih]

/-- Writing what is there changes nothing. -/
theorem insert_of_mem [IsStrictTotalOrder κ (· < ·)] {m : List (κ × β)} (h : Sorted m) {k : κ}
    {v : β} (hm : (k, v) ∈ m) : insert k v m = m := by
  induction m with
  | nil => exact absurd hm List.not_mem_nil
  | cons e m ih =>
    obtain ⟨j, w⟩ := e
    simp only [Sorted, List.map_cons, List.pairwise_cons] at h
    rcases List.mem_cons.mp hm with heq | hm
    · obtain ⟨rfl, rfl⟩ := Prod.mk.inj heq
      rw [insert, if_pos rfl]
    · have hlt : j < k := h.1 k (List.mem_map_of_mem hm)
      have hne : j ≠ k := fun heq => irrefl_of (· < ·) k (heq ▸ hlt)
      have hnot : ¬k < j := fun hkj => irrefl_of (· < ·) k (IsTrans.trans _ _ _ hkj hlt)
      rw [insert, if_neg hne, if_neg hnot, ih h.2 hm]

theorem lookup_of_mem [IsStrictTotalOrder κ (· < ·)] {m : List (κ × β)} (h : Sorted m) {k : κ}
    {v : β} (hm : (k, v) ∈ m) : lookup k m = some v := by
  rw [← insert_of_mem h hm, lookup_insert_self]

/-- Writing a key keeps the key order. -/
theorem sorted_insert [IsStrictTotalOrder κ (· < ·)] {m : List (κ × β)} (h : Sorted m) (k : κ)
    (v : β) : Sorted (insert k v m) := by
  induction m with
  | nil => simp [insert, Sorted]
  | cons e m ih =>
    obtain ⟨j, w⟩ := e
    simp only [Sorted, List.map_cons, List.pairwise_cons] at h
    rw [insert]
    split_ifs with hj hlt
    · subst hj
      simpa [Sorted] using h
    · simp only [Sorted, List.map_cons, List.pairwise_cons]
      refine ⟨?_, h⟩
      rintro a (_ | ⟨_, ha⟩)
      · exact hlt
      · exact IsTrans.trans _ _ _ hlt (h.1 a ha)
    · simp only [Sorted, List.map_cons, List.pairwise_cons]
      refine ⟨fun a ha => ?_, ih h.2⟩
      rcases mem_keys_insert.mp ha with rfl | ha
      · rcases trichotomous_of (· < ·) j a with hja | hja | hja
        · exact hja
        · exact absurd hja hj
        · exact absurd hja hlt
      · exact h.1 a ha

end Insert

section Perm

variable {κ β : Type*} [DecidableEq κ] {k : κ} {m : List (κ × β)}

theorem erase_eq_self (h : k ∉ m.map Prod.fst) : erase k m = m := by
  rw [erase, List.filter_eq_self]
  intro e he
  have hne : e.1 ≠ k := fun heq => h (heq ▸ List.mem_map_of_mem he)
  simpa using hne

variable [LT κ]

/-- What was written is erased again. -/
theorem erase_insert [DecidableLT κ] (k : κ) (v : β) (m : List (κ × β)) :
    erase k (insert k v m) = erase k m := by
  induction m with
  | nil => simp [insert, erase]
  | cons e m ih =>
    obtain ⟨j, w⟩ := e
    rw [insert]
    split_ifs with hj hlt
    · subst hj
      simp [erase]
    · simp [erase]
    · have hkept : ∀ l : List (κ × β), erase k ((j, w) :: l) = (j, w) :: erase k l := fun l => by
        rw [erase, List.filter_cons_of_pos (by simpa using hj)]
        rfl
      rw [hkept, hkept, ih]

/-- Erasing takes one entry away. -/
theorem erase_perm [IsStrictTotalOrder κ (· < ·)] (h : Sorted m) {v : β} (hmem : (k, v) ∈ m) :
    m.Perm ((k, v) :: erase k m) := by
  induction m with
  | nil => exact absurd hmem List.not_mem_nil
  | cons e m ih =>
    obtain ⟨j, w⟩ := e
    simp only [Sorted, List.map_cons, List.pairwise_cons] at h
    rcases List.mem_cons.mp hmem with heq | hmem
    · obtain ⟨rfl, rfl⟩ := Prod.mk.inj heq
      have hout : k ∉ m.map Prod.fst := fun hin => irrefl_of (· < ·) k (h.1 k hin)
      have herase : erase k ((k, v) :: m) = m := by
        rw [erase, List.filter_cons_of_neg (by simp)]
        exact erase_eq_self hout
      rw [herase]
    · have hne : j ≠ k := by
        rintro rfl
        exact irrefl_of (· < ·) j (h.1 j (List.mem_map_of_mem hmem))
      have herase : erase k ((j, w) :: m) = (j, w) :: erase k m := by
        rw [erase, List.filter_cons_of_pos (by simpa using hne)]
        rfl
      rw [herase]
      exact ((ih h.2 hmem).cons (j, w)).trans (.swap _ _ _)

/-- Writing a key leaves the entries under all others. -/
theorem insert_perm_erase [DecidableLT κ] [IsStrictTotalOrder κ (· < ·)] (h : Sorted m) (v : β) :
    (insert k v m).Perm ((k, v) :: erase k m) := by
  rw [← erase_insert k v m]
  exact erase_perm (sorted_insert h k v) (mem_insert_self k v m)

end Perm

end Assoc

/-! ### Doubles -/

/-- A `double`, by its IEEE 754 bits. -/
structure Double where
  bits : UInt64
deriving DecidableEq, Inhabited

namespace Double

/-- The biased exponent field. -/
def exponent (x : Double) : UInt64 := x.bits >>> 52 &&& 0x7ff

def isFinite (x : Double) : Bool := x.exponent ≠ 0x7ff

def isNaN (x : Double) : Bool := x.exponent = 0x7ff && x.bits <<< 12 ≠ 0

/-- `operator==` on doubles: a NaN equals nothing, the zeros equal each
other. -/
def eqv (x y : Double) : Bool :=
  !x.isNaN && !y.isNaN && (x.bits = y.bits || (x.bits <<< 1 = 0 && y.bits <<< 1 = 0))

/-- The double nearest a natural number, ties to even. -/
def ofNat (n : Nat) : Double :=
  if n = 0 then ⟨0⟩
  else
    let e := n.log2
    let m :=
      if e ≤ 52 then n <<< (52 - e)
      else
        let s := e - 52
        let q := n >>> s
        let r := n % (1 <<< s)
        if r > 1 <<< (s - 1) ∨ (r = 1 <<< (s - 1) ∧ q % 2 = 1) then q + 1 else q
    -- A mantissa rounded up to 2^53 carries into the exponent by itself.
    ⟨UInt64.ofNat (((e + 1023) <<< 52) + (m - 1 <<< 52))⟩

/-- `static_cast<double>` of an integer. -/
def ofInt (n : Int) : Double :=
  if n < 0 then ⟨(ofNat n.natAbs).bits ||| 0x8000000000000000⟩ else ofNat n.natAbs

end Double

/-! ### Values -/

/-- A JSON value.  `int` is `number_integer`, `uint` is `number_unsigned`;
the fields of an object stand in key order. -/
inductive Json where
  | null
  | bool (b : Bool)
  | int (n : Int64)
  | uint (n : UInt64)
  | float (x : Double)
  | str (s : Bytes)
  | arr (items : List Json)
  | obj (fields : List (Bytes × Json))
deriving Inhabited

namespace Json

mutual

/-- Whether two values are the same, type for type. -/
def decEq : (a b : Json) → Decidable (a = b)
  | .null, .null => isTrue rfl
  | .bool a, .bool b => decidable_of_iff (a = b) (by simp)
  | .int a, .int b => decidable_of_iff (a = b) (by simp)
  | .uint a, .uint b => decidable_of_iff (a = b) (by simp)
  | .float a, .float b => decidable_of_iff (a = b) (by simp)
  | .str a, .str b => decidable_of_iff (a = b) (by simp)
  | .arr a, .arr b => @decidable_of_iff _ (a = b) (by simp) (decEqItems a b)
  | .obj a, .obj b => @decidable_of_iff _ (a = b) (by simp) (decEqFields a b)
  | .null, .bool _ | .null, .int _ | .null, .uint _ | .null, .float _ | .null, .str _
  | .null, .arr _ | .null, .obj _
  | .bool _, .null | .bool _, .int _ | .bool _, .uint _ | .bool _, .float _ | .bool _, .str _
  | .bool _, .arr _ | .bool _, .obj _
  | .int _, .null | .int _, .bool _ | .int _, .uint _ | .int _, .float _ | .int _, .str _
  | .int _, .arr _ | .int _, .obj _
  | .uint _, .null | .uint _, .bool _ | .uint _, .int _ | .uint _, .float _ | .uint _, .str _
  | .uint _, .arr _ | .uint _, .obj _
  | .float _, .null | .float _, .bool _ | .float _, .int _ | .float _, .uint _ | .float _, .str _
  | .float _, .arr _ | .float _, .obj _
  | .str _, .null | .str _, .bool _ | .str _, .int _ | .str _, .uint _ | .str _, .float _
  | .str _, .arr _ | .str _, .obj _
  | .arr _, .null | .arr _, .bool _ | .arr _, .int _ | .arr _, .uint _ | .arr _, .float _
  | .arr _, .str _ | .arr _, .obj _
  | .obj _, .null | .obj _, .bool _ | .obj _, .int _ | .obj _, .uint _ | .obj _, .float _
  | .obj _, .str _ | .obj _, .arr _ => isFalse (by simp)

def decEqItems : (a b : List Json) → Decidable (a = b)
  | [], [] => isTrue rfl
  | [], _ :: _ => isFalse (by simp)
  | _ :: _, [] => isFalse (by simp)
  | a :: as, b :: bs =>
    match decEq a b with
    | isTrue h => @decidable_of_iff _ (as = bs) (by simp [h]) (decEqItems as bs)
    | isFalse h => isFalse (by simp [h])

def decEqFields : (a b : List (Bytes × Json)) → Decidable (a = b)
  | [], [] => isTrue rfl
  | [], _ :: _ => isFalse (by simp)
  | _ :: _, [] => isFalse (by simp)
  | (j, a) :: as, (k, b) :: bs =>
    if hk : j = k then
      match decEq a b with
      | isTrue h => @decidable_of_iff _ (as = bs) (by simp [h, hk]) (decEqFields as bs)
      | isFalse h => isFalse (by simp [h])
    else isFalse (by simp [hk])

end

instance : DecidableEq Json := decEq

/-! ### Objects -/

/-- The value an object holds under `key`; nothing for any other value. -/
def get? (j : Json) (key : Bytes) : Option Json :=
  match j with
  | .obj fields => Assoc.lookup key fields
  | _ => none

/-- `j[key] = v` on an object (or on `null`, which becomes one).  Any other
value aborts in the source and is left alone here. -/
def set (j : Json) (key : Bytes) (v : Json) : Json :=
  match j with
  | .obj fields => .obj (Assoc.insert key v fields)
  | .null => .obj [(key, v)]
  | j => j

/-- `j.erase(key)`. -/
def erase (j : Json) (key : Bytes) : Json :=
  match j with
  | .obj fields => .obj (Assoc.erase key fields)
  | j => j

/-- `j.contains(key)`. -/
def contains (j : Json) (key : Bytes) : Bool := (j.get? key).isSome

/-- An object literal of the source: its entries written in order. -/
def ofFields (fields : List (Bytes × Json)) : Json :=
  .obj (fields.foldl (fun m e => Assoc.insert e.1 e.2 m) [])

/-- `j.update(other)` of an object with an object. -/
def update (j other : Json) : Json :=
  match other with
  | .obj fields => fields.foldl (fun j e => j.set e.1 e.2) j
  | _ => j

def isObject : Json → Bool
  | .obj _ => true
  | _ => false

def isArray : Json → Bool
  | .arr _ => true
  | _ => false

/-- `empty()`: of a container that holds nothing, and of `null`. -/
def isEmpty : Json → Bool
  | .null => true
  | .arr items => items.isEmpty
  | .obj fields => fields.isEmpty
  | _ => false

/-- The items of an array; none of any other value. -/
def items : Json → List Json
  | .arr items => items
  | _ => []

@[simp] theorem get?_obj (fields : List (Bytes × Json)) (key : Bytes) :
    (Json.obj fields).get? key = Assoc.lookup key fields := rfl

@[simp] theorem set_obj (fields : List (Bytes × Json)) (key : Bytes) (v : Json) :
    (Json.obj fields).set key v = .obj (Assoc.insert key v fields) := rfl

@[simp] theorem isObject_obj (fields : List (Bytes × Json)) : (Json.obj fields).isObject = true :=
  rfl

theorem get?_set {j : Json} (h : j.isObject) (key k : Bytes) (v : Json) :
    (j.set key v).get? k = if k = key then some v else j.get? k := by
  cases j <;> simp [isObject] at h
  exact Assoc.lookup_insert _ _ _ _

/-- Writing a member leaves the others. -/
theorem get?_set_ne (j v : Json) {key k : Bytes} (h : k ≠ key) :
    (j.set key v).get? k = j.get? k := by
  cases j with
  | obj fields => exact Assoc.lookup_insert_ne h v fields
  | null => exact Assoc.lookup_insert_ne h v []
  | _ => rfl

theorem isObject_set {j : Json} (h : j.isObject) (key : Bytes) (v : Json) :
    (j.set key v).isObject := by
  cases j <;> simp_all [isObject, set]

@[simp] theorem set_set_self (j : Json) (key : Bytes) (v w : Json) :
    (j.set key w).set key v = j.set key v := by
  cases j <;> simp [set, Assoc.insert]

/-- Writing what another write left there changes nothing. -/
theorem set_set_of_fixed {j v : Json} {key k : Bytes} (h : j.set key v = j) (hne : k ≠ key)
    (w : Json) : (j.set k w).set key v = j.set k w := by
  cases j with
  | obj fields =>
    have hfields : Assoc.insert key v fields = fields := by simpa using h
    simp [Assoc.insert_insert_of_fixed hfields hne]
  | null => cases h
  | _ => rfl

/-- A value with a member is an object. -/
theorem isObject_of_get? {j v : Json} {key : Bytes} (h : j.get? key = some v) : j.isObject := by
  cases j <;> simp_all [get?, isObject]

/-! ### Objects in key order -/

/-- An object whose members are in key order, as every object of the source is. -/
def Keyed (j : Json) : Prop := ∃ fields, j = .obj fields ∧ Assoc.Sorted fields

theorem Keyed.isObject {j : Json} (h : Keyed j) : j.isObject := by
  obtain ⟨fields, rfl, -⟩ := h
  rfl

theorem Keyed.set {j : Json} (h : Keyed j) (key : Bytes) (v : Json) : Keyed (j.set key v) := by
  obtain ⟨fields, rfl, hsorted⟩ := h
  exact ⟨_, rfl, Assoc.sorted_insert hsorted key v⟩

theorem Keyed.erase {j : Json} (h : Keyed j) (key : Bytes) : Keyed (j.erase key) := by
  obtain ⟨fields, rfl, hsorted⟩ := h
  exact ⟨_, rfl, Assoc.sorted_erase hsorted key⟩

theorem keyed_ofFields (fields : List (Bytes × Json)) : Keyed (ofFields fields) := by
  refine ⟨_, rfl, ?_⟩
  have hall : ∀ m : List (Bytes × Json), Assoc.Sorted m →
      Assoc.Sorted (fields.foldl (fun m e => Assoc.insert e.1 e.2 m) m) := by
    induction fields with
    | nil => exact fun m h => h
    | cons e fields ih => exact fun m h => ih _ (Assoc.sorted_insert h e.1 e.2)
  exact hall [] List.Pairwise.nil

theorem get?_erase (j : Json) (key k : Bytes) :
    (j.erase key).get? k = if k = key then none else j.get? k := by
  cases j with
  | obj fields => exact Assoc.lookup_erase key k fields
  | _ => split_ifs <;> rfl

/-- An object updated with itself is itself. -/
theorem update_self {j : Json} (h : Keyed j) : j.update j = j := by
  obtain ⟨fields, rfl, hsorted⟩ := h
  have hall : ∀ l : List (Bytes × Json), (∀ e ∈ l, e ∈ fields) →
      l.foldl (fun (j : Json) e => j.set e.1 e.2) (obj fields) = obj fields := by
    intro l
    induction l with
    | nil => exact fun _ => rfl
    | cons e l ih =>
      intro hl
      rw [List.foldl_cons, set_obj, Assoc.insert_of_mem hsorted (hl e List.mem_cons_self)]
      exact ih fun e' he' => hl e' (List.mem_cons_of_mem _ he')
  exact hall fields fun _ he => he

theorem get?_update_fields (j : Json) (fields : List (Bytes × Json)) (key : Bytes) :
    (j.update (.obj fields)).get? key = j.get? key ∨
      ∃ v, (key, v) ∈ fields ∧ (j.update (.obj fields)).get? key = some v := by
  show (fields.foldl (fun (j : Json) e => j.set e.1 e.2) j).get? key = _ ∨ ∃ v,
    (key, v) ∈ fields ∧ (fields.foldl (fun (j : Json) e => j.set e.1 e.2) j).get? key = some v
  induction fields generalizing j with
  | nil => exact .inl rfl
  | cons e fields ih =>
    rw [List.foldl_cons]
    rcases ih (j.set e.1 e.2) with hheld | ⟨v, hmem, hv⟩
    · rw [hheld]
      by_cases hkey : key = e.1
      · subst hkey
        cases j with
        | obj fields => exact .inr ⟨e.2, List.mem_cons_self, Assoc.lookup_insert_self _ _ _⟩
        | null => exact .inr ⟨e.2, List.mem_cons_self, Assoc.lookup_insert_self _ _ []⟩
        | _ => exact .inl rfl
      · refine .inl ?_
        cases j with
        | obj fields => exact Assoc.lookup_insert_ne hkey _ _
        | null => exact Assoc.lookup_insert_ne hkey _ []
        | _ => rfl
    · exact .inr ⟨v, List.mem_cons_of_mem _ hmem, hv⟩

/-- What an updated value holds was there before, or came with the update. -/
theorem get?_update (j : Json) {other v : Json} (h : Keyed other) {key : Bytes}
    (hv : other.get? key = some v) :
    (j.update other).get? key = j.get? key ∨ (j.update other).get? key = some v := by
  obtain ⟨fields, rfl, hsorted⟩ := h
  refine (get?_update_fields j fields key).imp_right ?_
  rintro ⟨w, hmem, hw⟩
  rw [hw, ← hv, get?_obj, Assoc.lookup_of_mem hsorted hmem]

/-- An update is written over what was there. -/
theorem get?_update_keyed {j other : Json} (hj : j.isObject) (h : Keyed other) (key : Bytes) :
    (j.update other).get? key = (other.get? key).or (j.get? key) := by
  obtain ⟨fields, rfl, hsorted⟩ := h
  show (fields.foldl (fun (j : Json) e => j.set e.1 e.2) j).get? key =
    (Assoc.lookup key fields).or (j.get? key)
  induction fields generalizing j with
  | nil => rfl
  | cons e fields ih =>
    have htail : Assoc.Sorted fields := (List.pairwise_cons.mp hsorted).2
    rw [List.foldl_cons, ih (isObject_set hj e.1 e.2) htail, get?_set hj, Assoc.lookup_cons]
    by_cases hkey : key = e.1
    · subst hkey
      have hnone : Assoc.lookup e.1 fields = none := Assoc.lookup_eq_none.mpr fun hmem =>
        absurd ((List.pairwise_cons.mp hsorted).1 e.1 hmem) (irrefl_of (· < ·) e.1)
      rw [hnone, if_pos rfl, if_pos rfl]
      rfl
    · rw [if_neg hkey, if_neg (Ne.symm hkey)]

theorem Keyed.update {j other : Json} (hj : Keyed j) : Keyed (j.update other) := by
  cases other with
  | obj fields =>
    show Keyed (fields.foldl (fun (j : Json) e => j.set e.1 e.2) j)
    induction fields generalizing j with
    | nil => exact hj
    | cons e fields ih => exact ih (hj.set e.1 e.2)
  | _ => exact hj

/-! ### `operator==` -/

mutual

/-- `operator==`: numbers of different types compare by conversion. -/
def eqv : Json → Json → Bool
  | .null, .null => true
  | .bool a, .bool b => a = b
  | .str a, .str b => a = b
  | .int a, .int b => a = b
  | .uint a, .uint b => a = b
  | .float a, .float b => a.eqv b
  | .int a, .float b => (Double.ofInt a.toInt).eqv b
  | .float a, .int b => a.eqv (Double.ofInt b.toInt)
  | .uint a, .float b => (Double.ofNat a.toNat).eqv b
  | .float a, .uint b => a.eqv (Double.ofNat b.toNat)
  | .uint a, .int b => a.toInt64 = b
  | .int a, .uint b => a = b.toInt64
  | .arr a, .arr b => eqvItems a b
  | .obj a, .obj b => eqvFields a b
  | _, _ => false

def eqvItems : List Json → List Json → Bool
  | [], [] => true
  | a :: as, b :: bs => eqv a b && eqvItems as bs
  | _, _ => false

def eqvFields : List (Bytes × Json) → List (Bytes × Json) → Bool
  | [], [] => true
  | (j, a) :: as, (k, b) :: bs => j = k && eqv a b && eqvFields as bs
  | _, _ => false

end

end Json
