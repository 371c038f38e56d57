/-
UAgent/Base/JsonSlot.lean

Objects whose text is written in two goes: a member stands for its value as a
string, the slot, and the value's text is put in the slot's place afterwards.

The text of an object falls apart at a member (`dump_obj_append`), so the slot
is found where the member is, and what comes out is the object with the value
(`dump_fillSlot`, `dump_fillSlots`), unless its text spells the slot itself.
-/
import UAgent.Base.JsonText
import UAgent.Base.Occurrences

/-! ### Members -/

namespace Assoc

variable {κ β : Type*} [DecidableEq κ] [LT κ] [DecidableLT κ]

/-- Two keys may be written in either order. -/
theorem insert_comm [IsStrictTotalOrder κ (· < ·)] {j k : κ} (h : j ≠ k) (v w : β)
    (m : List (κ × β)) : insert j w (insert k v m) = insert k v (insert j w m) := by
  have hasymm : ∀ {a b : κ}, a < b → ¬b < a := fun hab hba =>
    irrefl_of (· < ·) _ (IsTrans.trans _ _ _ hab hba)
  have hless : ∀ {a b : κ}, a ≠ b → ¬a < b → b < a := fun {a b} hne hab => by
    rcases trichotomous_of (· < ·) a b with hlt | heq | hgt
    · exact absurd hlt hab
    · exact absurd heq hne
    · exact hgt
  -- two new entries in front of the same tail stand in key order
  have hfront : ∀ e m, (∀ u, insert k u (e :: m) = (k, u) :: e :: m) →
      (∀ u, insert j u (e :: m) = (j, u) :: e :: m) →
        insert j w ((k, v) :: e :: m) = insert k v ((j, w) :: e :: m) := by
    intro e m hk hj
    by_cases hjk : j < k
    · rw [insert, if_neg (Ne.symm h), if_pos hjk, insert, if_neg h, if_neg (hasymm hjk), hk]
    · rw [insert, if_neg (Ne.symm h), if_neg hjk, hj, insert, if_neg h, if_pos (hless h hjk)]
  induction m with
  | nil =>
    by_cases hjk : j < k
    · simp [insert, h, Ne.symm h, hjk, hasymm hjk]
    · simp [insert, h, Ne.symm h, hjk, hless h hjk]
  | cons e m ih =>
    obtain ⟨i, u⟩ := e
    have hk : ∀ v, i ≠ k → k < i → insert k v ((i, u) :: m) = (k, v) :: (i, u) :: m :=
      fun v hik hki => by rw [insert, if_neg hik, if_pos hki]
    have hj : ∀ w, i ≠ j → j < i → insert j w ((i, u) :: m) = (j, w) :: (i, u) :: m :=
      fun w hij hji => by rw [insert, if_neg hij, if_pos hji]
    have hpast : ∀ {l : κ} x, i ≠ l → ¬l < i → ∀ m,
        insert l x ((i, u) :: m) = (i, u) :: insert l x m :=
      fun x hil hli m => by rw [insert, if_neg hil, if_neg hli]
    by_cases hik : i = k
    · subst hik
      by_cases hji : j < i
      · simp [insert, h, Ne.symm h, hji, hasymm hji]
      · simp [insert, Ne.symm h, hji]
    by_cases hij : i = j
    · subst hij
      by_cases hki : k < i
      · simp [insert, h, Ne.symm h, hki, hasymm hki]
      · simp [insert, h, hki]
    by_cases hki : k < i
    · by_cases hji : j < i
      · rw [hk v hik hki, hj w hij hji]
        exact hfront _ _ (fun v => hk v hik hki) fun w => hj w hij hji
      · have hjk : ¬j < k := fun hjk => hji (IsTrans.trans _ _ _ hjk hki)
        rw [hk v hik hki, hpast w hij hji, insert, if_neg (Ne.symm h), if_neg hjk, hpast w hij hji,
          insert, if_neg hik, if_pos hki]
    · by_cases hji : j < i
      · have hkj : ¬k < j := fun hkj => hki (IsTrans.trans _ _ _ hkj hji)
        rw [hj w hij hji, hpast v hik hki, insert, if_neg hij, if_pos hji, insert, if_neg h,
          if_neg hkj, hpast v hik hki]
      · rw [hpast v hik hki, hpast w hij hji, hpast w hij hji, hpast v hik hki, ih]

/-- A new key goes behind the smaller ones before it. -/
theorem exists_insert_eq [IsStrictTotalOrder κ (· < ·)] {k : κ} {m : List (κ × β)}
    (h : lookup k m = none) :
    ∃ a c, m = a ++ c ∧ (∀ v, insert k v m = a ++ (k, v) :: c) ∧ ∀ e ∈ a, e.1 < k := by
  induction m with
  | nil => exact ⟨[], [], rfl, fun _ => rfl, fun e he => absurd he List.not_mem_nil⟩
  | cons e m ih =>
    obtain ⟨j, w⟩ := e
    rw [lookup_cons] at h
    split_ifs at h with hj
    by_cases hlt : k < j
    · refine ⟨[], (j, w) :: m, rfl, fun v => ?_, fun e he => absurd he List.not_mem_nil⟩
      rw [insert, if_neg hj, if_pos hlt]
      rfl
    · obtain ⟨a, c, rfl, hinsert, hsmaller⟩ := ih h
      refine ⟨(j, w) :: a, c, rfl, fun v => ?_, ?_⟩
      · rw [List.cons_append, insert, if_neg hj, if_neg hlt, hinsert]
      · intro e he
        rcases List.mem_cons.mp he with rfl | he
        · rcases trichotomous_of (· < ·) j k with hjk | hjk | hjk
          · exact hjk
          · exact absurd hjk hj
          · exact absurd hjk hlt
        · exact hsmaller e he

/-- Writing a key passes over the smaller ones. -/
theorem insert_append [IsStrictTotalOrder κ (· < ·)] {k : κ} {a : List (κ × β)}
    (h : ∀ e ∈ a, e.1 < k) (v : β) (c : List (κ × β)) :
    insert k v (a ++ c) = a ++ insert k v c := by
  induction a with
  | nil => rfl
  | cons e a ih =>
    obtain ⟨j, w⟩ := e
    have hjk : j < k := h _ List.mem_cons_self
    have hne : j ≠ k := fun heq => irrefl_of (· < ·) k (heq ▸ hjk)
    have hnot : ¬k < j := fun hkj => irrefl_of (· < ·) k (IsTrans.trans _ _ _ hkj hjk)
    rw [List.cons_append, insert, if_neg hne, if_neg hnot,
      ih fun e he => h e (List.mem_cons_of_mem _ he)]
    rfl

end Assoc

/-! ### Text -/

namespace Bytes

variable {α : Type*}

theorem flatMap_sep {sep : List α} {pieces : List (List α)} (h : pieces ≠ []) :
    pieces.flatMap (sep ++ ·) = sep ++ joinWith sep pieces := by
  obtain ⟨x, pieces, rfl⟩ := List.exists_cons_of_ne_nil h
  rw [List.flatMap_cons, joinWith, List.append_assoc]

/-- Joined pieces, seen from one of them. -/
theorem joinWith_append_cons (sep : List α) (a : List (List α)) (x : List α)
    (c : List (List α)) :
    joinWith sep (a ++ x :: c) = a.flatMap (· ++ sep) ++ x ++ c.flatMap (sep ++ ·) := by
  induction a with
  | nil => rfl
  | cons y a ih =>
    have hne : a ++ x :: c ≠ [] := List.append_ne_nil_of_right_ne_nil _ (List.cons_ne_nil x c)
    rw [List.cons_append, joinWith, flatMap_sep hne, ih]
    simp [List.append_assoc]

/-- A pattern is found right behind a character that it does not have. -/
theorem find_behind [DecidableEq α] {pat a : List α} {c : α} (hc : c ∉ pat)
    (h : ¬pat <:+: a ++ [c]) (s : List α) :
    find pat (a ++ [c] ++ (pat ++ s)) = some (a ++ [c]).length := by
  have hpat : pat ≠ [] := fun hnil => h (hnil ▸ List.nil_infix)
  obtain ⟨d, rest, hcons⟩ := List.exists_cons_of_ne_nil hpat
  -- what starts before the character would go over it
  have hnot : ∀ a, ¬pat <:+: a ++ [c] → ¬pat <+: a ++ [c] ++ (pat ++ s) := by
    intro a hinfix hpre
    rcases List.prefix_or_prefix_of_prefix hpre (List.prefix_append (a ++ [c]) (pat ++ s)) with
      hin | hover
    · exact hinfix hin.isInfix
    · exact hc (hover.subset (List.mem_append_right a List.mem_cons_self))
  induction a with
  | nil =>
    have hstart := hnot [] h
    rw [List.nil_append, List.cons_append, List.nil_append] at hstart ⊢
    rw [find, if_neg hstart, find_append_of_isPrefix (List.prefix_append pat s)]
    rfl
  | cons b a ih =>
    have hstart := hnot (b :: a) h
    have htail : ¬pat <:+: a ++ [c] := fun hin => h (hin.trans (List.suffix_cons b _).isInfix)
    rw [List.cons_append, List.cons_append] at hstart ⊢
    rw [find, if_neg hstart, ih htail]
    rfl

end Bytes

namespace Json

open Bytes

/-- A field that is written where a condition holds. -/
def setIf (j : Json) (condition : Bool) (key : Bytes) (v : Json) : Json :=
  if condition then j.set key v else j

/-- Two fields may be written in either order. -/
theorem set_comm (j : Json) {key other : Bytes} (h : other ≠ key) (v w : Json) :
    (j.set key v).set other w = (j.set other w).set key v := by
  cases j with
  | obj fields => exact congrArg Json.obj (Assoc.insert_comm h v w fields)
  | null => exact congrArg Json.obj (Assoc.insert_comm h v w [])
  | _ => rfl

theorem setIf_set (j : Json) (condition : Bool) {key other : Bytes} (h : other ≠ key)
    (v w : Json) :
    (j.set key v).setIf condition other w = (j.setIf condition other w).set key v := by
  unfold setIf
  split_ifs
  · exact set_comm j h v w
  · rfl

section Slots

variable [DoubleText]

/-- What an object's text has before a member. -/
def textBefore (fields : List (Bytes × Json)) : Bytes :=
  ch '{' :: fields.flatMap fun e => dumpField e ++ [ch ',']

/-- What it has behind one. -/
def textBehind (fields : List (Bytes × Json)) : Bytes :=
  fields.flatMap (fun e => ch ',' :: dumpField e) ++ [ch '}']

theorem dump_obj_append (a : List (Bytes × Json)) (key : Bytes) (v : Json)
    (c : List (Bytes × Json)) :
    dump (.obj (a ++ (key, v) :: c)) =
      textBefore a ++ (quote key ++ ch ':' :: dump v) ++ textBehind c := by
  rw [dump_obj, List.map_append, List.map_cons, joinWith_append_cons, List.flatMap_map,
    List.flatMap_map]
  simp [textBefore, textBehind, dumpField]

theorem textBefore_eq_concat (fields : List (Bytes × Json)) :
    ∃ a c, textBefore fields = a ++ [c] ∧ (c = ch '{' ∨ c = ch ',') := by
  rcases List.eq_nil_or_concat' fields with rfl | ⟨before, e, rfl⟩
  · exact ⟨[], ch '{', rfl, .inl rfl⟩
  · refine ⟨ch '{' :: (before.flatMap (fun e => dumpField e ++ [ch ',']) ++ dumpField e), ch ',',
      ?_, .inr rfl⟩
    rw [textBefore, List.flatMap_append, List.flatMap_singleton]
    simp [List.append_assoc]

/-! ### Slots -/

/-- The text of a member that stands as the slot. -/
def slotText (slot field : Bytes) : Bytes := quote field ++ ch ':' :: quote slot

/-- The first member of a name that stands as the slot is given its text. -/
def fillSlot (slot text field filling : Bytes) : Bytes :=
  match find (slotText slot field) text with
  | none => text
  | some start =>
    text.take (start + (quote field).length + 1) ++ filling ++
      text.drop (start + (slotText slot field).length)

/-- A slot's member has no character that stands between members. -/
def Apart (slot field : Bytes) : Prop :=
  ch '{' ∉ slotText slot field ∧ ch ',' ∉ slotText slot field

instance (slot field : Bytes) : Decidable (Apart slot field) := by
  unfold Apart
  infer_instance

omit [DoubleText] in
theorem slot_isInfix (slot field : Bytes) : quote slot <:+: slotText slot field :=
  ⟨quote field ++ [ch ':'], [], by simp [slotText]⟩

theorem fillSlot_eq {slot field : Bytes} (hapart : Apart slot field) {a : List (Bytes × Json)}
    (h : ¬quote slot <:+: textBefore a) (filling behind : Bytes) :
    fillSlot slot (textBefore a ++ slotText slot field ++ behind) field filling =
      textBefore a ++ (quote field ++ ch ':' :: filling) ++ behind := by
  obtain ⟨b, c, hbefore, hc⟩ := textBefore_eq_concat a
  have hnot : c ∉ slotText slot field := by
    rcases hc with rfl | rfl
    · exact hapart.1
    · exact hapart.2
  rw [hbefore] at h ⊢
  have hinfix : ¬slotText slot field <:+: b ++ [c] := fun hin =>
    h ((slot_isInfix slot field).trans hin)
  have hhead : ((b ++ [c]) ++ (slotText slot field ++ behind)).take
      ((b ++ [c]).length + (quote field).length + 1) = b ++ [c] ++ (quote field ++ [ch ':']) := by
    have hsplit : slotText slot field ++ behind =
        (quote field ++ [ch ':']) ++ (quote slot ++ behind) := by
      simp [slotText]
    have hend : (quote field).length + 1 = (quote field ++ [ch ':']).length := by
      rw [List.length_append, List.length_singleton]
    rw [Nat.add_assoc, List.take_length_add_append, hsplit, hend, List.take_left]
  have htail : ((b ++ [c]) ++ (slotText slot field ++ behind)).drop
      ((b ++ [c]).length + (slotText slot field).length) = behind := by
    rw [List.drop_length_add_append, List.drop_left]
  rw [fillSlot, List.append_assoc (b ++ [c]), find_behind hnot hinfix]
  dsimp only
  rw [hhead, htail]
  simp [List.append_assoc]

/-- **One slot**: the text becomes that of the object with the value. -/
theorem dump_fillSlot {j : Json} (hobject : j.isObject = true) {slot key : Bytes}
    (hapart : Apart slot key) (hkey : j.get? key = none) {v : Json}
    (h : ¬quote slot <:+: dump (j.set key v)) :
    fillSlot slot (dump (j.set key (.str slot))) key (dump v) = dump (j.set key v) := by
  cases j with
  | obj fields =>
    obtain ⟨a, c, -, hinsert, -⟩ := Assoc.exists_insert_eq hkey
    rw [set_obj, hinsert, dump_obj_append] at h
    have hbefore : ¬quote slot <:+: textBefore a := fun hin =>
      h (hin.trans ((List.prefix_append _ _).trans (List.prefix_append _ _)).isInfix)
    rw [set_obj, set_obj, hinsert, hinsert, dump_obj_append, dump_obj_append]
    exact fillSlot_eq hapart hbefore (dump v) (textBehind c)
  | _ => cases hobject

/-- **Two slots**, filled in the order of their keys. -/
theorem dump_fillSlots {j : Json} (hobject : j.isObject = true) {slot key later : Bytes}
    (hapart : Apart slot key) (hlater : Apart slot later) (hless : key < later)
    (hkey : j.get? key = none) (hnone : j.get? later = none) {v w : Json}
    (h : ¬quote slot <:+: dump ((j.set key v).set later w)) :
    fillSlot slot
        (fillSlot slot (dump ((j.set key (.str slot)).set later (.str slot))) key (dump v))
        later (dump w) =
      dump ((j.set key v).set later w) := by
  have hne : later ≠ key := fun heq => irrefl_of (· < ·) key (heq ▸ hless)
  have hrest : (j.set key v).get? later = none := by
    rw [get?_set_ne j v hne]
    exact hnone
  -- the first slot is filled whatever stands behind it
  have hfirst : fillSlot slot (dump ((j.set key (.str slot)).set later (.str slot))) key (dump v) =
      dump ((j.set key v).set later (.str slot)) := by
    cases j with
    | obj fields =>
      obtain ⟨a, c, rfl, hinsert, hsmaller⟩ := Assoc.exists_insert_eq hkey
      have hpast : ∀ (v w : Json),
          Assoc.insert later w (a ++ (key, v) :: c) = a ++ (key, v) :: Assoc.insert later w c := by
        intro v w
        have hbefore : ∀ e ∈ a ++ [(key, v)], e.1 < later := by
          intro e he
          rcases List.mem_append.mp he with he | he
          · exact IsTrans.trans _ _ _ (hsmaller e he) hless
          · rw [List.mem_singleton.mp he]
            exact hless
        have hpassed := Assoc.insert_append hbefore w c
        rwa [List.append_assoc, List.append_assoc] at hpassed
      simp only [set_obj, hinsert, hpast, dump_obj_append] at h ⊢
      have hbefore : ¬quote slot <:+: textBefore a := fun hin =>
        h (hin.trans ((List.prefix_append _ _).trans (List.prefix_append _ _)).isInfix)
      exact fillSlot_eq hapart hbefore (dump v) _
    | _ => cases hobject
  rw [hfirst]
  exact dump_fillSlot (isObject_set hobject key v) hlater hrest h

end Slots

end Json
