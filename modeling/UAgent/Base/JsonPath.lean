/-
UAgent/Base/JsonPath.lean

Members of members of a JSON object: what is found under a path of keys, and
how one member under a path is written, the objects on the way made where they
are missing.
-/
import UAgent.Base.Json

namespace Json

open Assoc

/-- The value under a path of keys. -/
def at? : Json → List Bytes → Option Json
  | j, [] => some j
  | j, key :: path => (j.get? key).bind fun v => v.at? path

/-- The value, or an empty object in the place of any other value. -/
def asObject (j : Json) : Json := if j.isObject then j else .obj []

/-- Writes the member under a path; `f` is given what is there. -/
def writeAt (f : Option Json → Json) : Json → List Bytes → Json
  | j, [] => j
  | j, [key] => j.set key (f (j.get? key))
  | j, key :: path => j.set key (writeAt f (asObject ((j.get? key).getD .null)) path)

variable {f : Option Json → Json} {j : Json} {key : Bytes} {path rest : List Bytes}

theorem isObject_asObject (j : Json) : j.asObject.isObject = true := by
  rw [asObject]
  split_ifs with hobject
  · exact hobject
  · rfl

theorem asObject_of_isObject (h : j.isObject = true) : j.asObject = j := by
  rw [asObject, if_pos h]

@[simp] theorem get?_asObject (j : Json) (key : Bytes) : j.asObject.get? key = j.get? key := by
  cases j <;> rfl

@[simp] theorem at?_nil (j : Json) : j.at? [] = some j := by
  rw [at?]

@[simp] theorem at?_cons (j : Json) (key : Bytes) (path : List Bytes) :
    j.at? (key :: path) = (j.get? key).bind fun v => v.at? path := by
  rw [at?]

theorem at?_append (j : Json) (path rest : List Bytes) :
    j.at? (path ++ rest) = (j.at? path).bind fun v => v.at? rest := by
  induction path generalizing j with
  | nil => rfl
  | cons key path ih =>
    rw [List.cons_append, at?_cons, at?_cons]
    cases j.get? key with
    | none => rfl
    | some v => exact ih v

/-- Nothing is found in a value that is no object. -/
theorem at?_of_not_isObject (h : j.isObject = false) (hpath : path ≠ []) : j.at? path = none := by
  cases path with
  | nil => exact absurd rfl hpath
  | cons key path =>
    rw [at?_cons]
    cases j <;> first | rfl | exact absurd h (by simp)

/-- What is found in a value that may be missing. -/
theorem at?_asObject_getD (held : Option Json) (hpath : path ≠ []) :
    (held.getD .null).asObject.at? path = held.bind fun v => v.at? path := by
  cases path with
  | nil => exact absurd rfl hpath
  | cons key path =>
    rw [at?_cons, get?_asObject]
    cases held with
    | none => rfl
    | some v => rw [Option.getD_some, Option.bind_some, at?_cons]

theorem writeAt_cons (f : Option Json → Json) (j : Json) (key : Bytes) (hpath : path ≠ []) :
    writeAt f j (key :: path) =
      j.set key (writeAt f (asObject ((j.get? key).getD .null)) path) := by
  cases path with
  | nil => exact absurd rfl hpath
  | cons next path => rw [writeAt]; simp

theorem isObject_writeAt (h : j.isObject = true) (f : Option Json → Json) (path : List Bytes) :
    (writeAt f j path).isObject = true := by
  rcases path with - | ⟨key, - | ⟨next, path⟩⟩
  · rw [writeAt]
    exact h
  · rw [writeAt]
    exact isObject_set h _ _
  · rw [writeAt_cons f j key (List.cons_ne_nil _ _)]
    exact isObject_set h _ _

/-- What is written is found, and so is what is in it. -/
theorem at?_writeAt_append (h : j.isObject = true) (hpath : path ≠ []) (f : Option Json → Json)
    (rest : List Bytes) :
    (writeAt f j path).at? (path ++ rest) = (f (j.at? path)).at? rest := by
  induction path generalizing j with
  | nil => exact absurd rfl hpath
  | cons key path ih =>
    cases path with
    | nil =>
      rw [writeAt, List.singleton_append, at?_cons, get?_set h, if_pos rfl, Option.bind_some,
        at?_cons]
      congr 2
      cases j.get? key with
      | none => rfl
      | some v => rw [Option.bind_some, at?_nil]
    | cons next path =>
      have hne : next :: path ≠ [] := List.cons_ne_nil _ _
      rw [writeAt_cons f j key hne, List.cons_append, at?_cons, get?_set h, if_pos rfl,
        Option.bind_some, ih (isObject_asObject _) hne, at?_asObject_getD _ hne]
      rw [← at?_cons]

/-- On the way to what is written there are objects. -/
theorem at?_writeAt_prefix (h : j.isObject = true) (hpath : path ≠ []) (hrest : rest ≠ [])
    (f : Option Json → Json) :
    ∃ group, (writeAt f j (path ++ rest)).at? path = some group ∧ group.isObject = true := by
  induction path generalizing j with
  | nil => exact absurd rfl hpath
  | cons key path ih =>
    have hne : path ++ rest ≠ [] := by simp [hrest]
    rw [List.cons_append, writeAt_cons f j key hne, at?_cons, get?_set h, if_pos rfl,
      Option.bind_some]
    cases path with
    | nil =>
      rw [at?_nil]
      exact ⟨_, rfl, isObject_writeAt (isObject_asObject _) _ _⟩
    | cons next path => exact ih (isObject_asObject _) (List.cons_ne_nil _ _)

/-- What is under no common path is left as it was. -/
theorem at?_writeAt_other (h : j.isObject = true) {other : List Bytes}
    (hpath : ¬path <+: other) (hother : ¬other <+: path) (f : Option Json → Json) :
    (writeAt f j path).at? other = j.at? other := by
  induction path generalizing j other with
  | nil => exact absurd (List.nil_prefix) hpath
  | cons key path ih =>
    cases other with
    | nil => exact absurd (List.nil_prefix) hother
    | cons next other =>
      by_cases hkey : next = key
      · subst hkey
        rw [List.cons_prefix_cons, not_and] at hpath hother
        have hne : path ≠ [] := by
          rintro rfl
          exact hpath rfl List.nil_prefix
        have hne' : other ≠ [] := by
          rintro rfl
          exact hother rfl List.nil_prefix
        rw [writeAt_cons f j next hne, at?_cons, get?_set h, if_pos rfl, Option.bind_some,
          ih (isObject_asObject _) (hpath rfl) (hother rfl), at?_asObject_getD _ hne', at?_cons]
      · have hset : ∀ v, (j.set key v).at? (next :: other) = j.at? (next :: other) := by
          intro v
          rw [at?_cons, at?_cons, get?_set_ne j v hkey]
        by_cases hne : path = []
        · subst hne
          rw [writeAt]
          exact hset _
        · rw [writeAt_cons f j key hne]
          exact hset _

/-- A write under a member is a write of that member. -/
theorem writeAt_set (h : j.isObject = true) {v : Json} (hv : v.isObject = true)
    (hpath : path ≠ []) (f : Option Json → Json) :
    writeAt f (j.set key v) (key :: path) = j.set key (writeAt f v path) := by
  rw [writeAt_cons f _ key hpath, get?_set h, if_pos rfl, Option.getD_some,
    asObject_of_isObject hv, set_set_self]

end Json
