/-
UAgent/Core/StatisticsSum.lean

Which totals `MergeNumericStatistics` (src/core/usage.cc) keeps.  A delta is
taken apart into its entries, each a group or a counter under a path of keys;
merging it brings them to the total one after another.  An integer counter
reads a floating total as zero, and a floating one reads the total under a key
that ends at a NUL; so a total is the sum of its counters as long as no integer
arrives after a double and no double under a key with a NUL is read elsewhere
(`statistics_sum`), and not otherwise (`statistics_integer_late`).
-/
import UAgent.Base.JsonPath
import UAgent.Core.UsageTally

namespace UAgent

open Bytes

/-! ### The entries of a delta -/

/-- What a member brings, given what is brought by it as a group: the group
and that, or the counter it is. -/
def memberEntries (key : Bytes) (inner : List (List Bytes × Json)) :
    Json → List (List Bytes × Json)
  | .obj _ => ([key], .obj []) :: inner.map fun e => (key :: e.1, e.2)
  | value => if countable value && key ≠ lit "complete" then [([key], value)] else []

mutual

/-- What a delta brings: its groups and what they bring, and its counters. -/
def statisticEntries : Json → List (List Bytes × Json)
  | .obj fields => fieldEntries fields
  | _ => []
termination_by structural delta => delta

def fieldEntries : List (Bytes × Json) → List (List Bytes × Json)
  | [] => []
  | (key, value) :: fields =>
    memberEntries key (statisticEntries value) value ++ fieldEntries fields
termination_by structural fields => fields

end

/-- A member's double, as `JsonValue` reads it. -/
def heldDouble : Option Json → Double
  | some (.float x) => x
  | some (.int n) => .ofInt n.toInt
  | some (.uint n) => .ofNat n.toNat
  | _ => ⟨0⟩

/-- `is_number_float()`. -/
def isFloat : Json → Bool
  | .float _ => true
  | _ => false

/-- A path whose last key ends at a NUL. -/
def cutLast : List Bytes → List Bytes
  | [] => []
  | [key] => [untilFirst 0 key]
  | key :: path => key :: cutLast path

/-- Where the total of an entry is read. -/
def readPath (e : List Bytes × Json) : List Bytes := if isFloat e.2 then cutLast e.1 else e.1

/-- A member after a group or a counter was brought to it. -/
def received [DoubleSum] (value : Json) (held : Option Json) : Json :=
  match value with
  | .obj _ => (held.getD .null).asObject
  | .float x => .float (DoubleSum.cappedSum (heldDouble held) x)
  | value => .int (Int64.ofInt
      (saturatingNonnegativeAdd (held.elim 0 nonnegativeJsonInteger) (nonnegativeJsonInteger value)))

/-- Brings an entry to a total. -/
def bring [DoubleSum] (total : Json) (e : List Bytes × Json) : Json :=
  total.writeAt (fun _ => received e.2 (total.at? (readPath e))) e.1

theorem cutLast_cons {path : List Bytes} (h : path ≠ []) (key : Bytes) :
    cutLast (key :: path) = key :: cutLast path := by
  rw [cutLast]
  exact h

theorem cutLast_ne_nil {path : List Bytes} (h : path ≠ []) : cutLast path ≠ [] := by
  rcases path with - | ⟨key, - | ⟨next, path⟩⟩
  · exact h
  · exact List.cons_ne_nil _ _
  · exact List.cons_ne_nil _ _

theorem readPath_ne_nil {e : List Bytes × Json} (h : e.1 ≠ []) : readPath e ≠ [] := by
  unfold readPath
  split_ifs
  · exact cutLast_ne_nil h
  · exact h

theorem readPath_cons {path : List Bytes} (h : path ≠ []) (key : Bytes) (value : Json) :
    readPath (key :: path, value) = key :: readPath (path, value) := by
  unfold readPath
  split_ifs
  · exact cutLast_cons h key
  · rfl

theorem readPath_of_not_isFloat {value : Json} (h : isFloat value = false) (path : List Bytes) :
    readPath (path, value) = path := by
  rw [readPath, if_neg (by rw [h]; exact Bool.false_ne_true)]

theorem jsonValueDouble_eq (object : Json) (key : Bytes) :
    jsonValueDouble object key = heldDouble (object.get? key) := by
  cases hheld : object.get? key with
  | none => simp [jsonValueDouble, heldDouble, hheld]
  | some value => cases value <;> simp [jsonValueDouble, heldDouble, hheld]

theorem numericStatistic_eq (object : Json) (key : Bytes) :
    numericStatistic object key = (object.get? key).elim 0 nonnegativeJsonInteger := by
  cases hheld : object.get? key <;> simp [numericStatistic, hheld]

theorem ne_nil_of_mem_memberEntries {key : Bytes} {inner : List (List Bytes × Json)} {value : Json} :
    ∀ e ∈ memberEntries key inner value, e.1 ≠ [] := by
  intro e he
  cases value with
  | obj group =>
    rcases List.mem_cons.mp he with rfl | he
    · exact List.cons_ne_nil _ _
    · obtain ⟨_, -, rfl⟩ := List.mem_map.mp he
      exact List.cons_ne_nil _ _
  | _ =>
    simp only [memberEntries] at he
    split_ifs at he
    · obtain rfl := List.mem_singleton.mp he
      exact List.cons_ne_nil _ _
    · exact absurd he List.not_mem_nil

theorem ne_nil_of_mem_fieldEntries {fields : List (Bytes × Json)} :
    ∀ e ∈ fieldEntries fields, e.1 ≠ [] := by
  induction fields with
  | nil => simp [fieldEntries]
  | cons member fields ih =>
    intro e he
    rw [fieldEntries] at he
    rcases List.mem_append.mp he with he | he
    · exact ne_nil_of_mem_memberEntries e he
    · exact ih e he

theorem ne_nil_of_mem_statisticEntries {delta : Json} : ∀ e ∈ statisticEntries delta, e.1 ≠ [] := by
  cases delta with
  | obj fields =>
    rw [statisticEntries]
    exact ne_nil_of_mem_fieldEntries
  | _ => simp [statisticEntries]

section Entries

variable [DoubleSum]

theorem isObject_foldl_bring {total : Json} (h : total.isObject = true)
    (entries : List (List Bytes × Json)) : (entries.foldl bring total).isObject = true := by
  induction entries generalizing total with
  | nil => exact h
  | cons e entries ih => exact ih (Json.isObject_writeAt h _ _)

/-- Entries brought into a member that is a group. -/
theorem foldl_bring_set {total group : Json} {key : Bytes} (h : total.isObject = true)
    (hgroup : group.isObject = true) {entries : List (List Bytes × Json)}
    (hne : ∀ e ∈ entries, e.1 ≠ []) :
    (entries.map fun e => (key :: e.1, e.2)).foldl bring (total.set key group) =
      total.set key (entries.foldl bring group) := by
  induction entries generalizing group with
  | nil => rfl
  | cons e entries ih =>
    have hpath : e.1 ≠ [] := hne e List.mem_cons_self
    have hread : (total.set key group).at? (readPath (key :: e.1, e.2)) = group.at? (readPath e) := by
      rw [readPath_cons hpath, Json.at?_cons, Json.get?_set h, if_pos rfl, Option.bind_some]
    have hwrite : bring (total.set key group) (key :: e.1, e.2) =
        total.set key (bring group e) := by
      rw [bring, hread]
      exact Json.writeAt_set h hgroup hpath _
    rw [List.map_cons, List.foldl_cons, hwrite, List.foldl_cons]
    exact ih (Json.isObject_writeAt hgroup _ _) fun e' he' => hne e' (List.mem_cons_of_mem _ he')

theorem bring_singleton (total : Json) (key : Bytes) (value : Json) :
    bring total ([key], value) =
      total.set key (received value (total.at? (readPath ([key], value)))) := by
  rw [bring, Json.writeAt]

omit [DoubleSum] in
theorem at?_singleton (total : Json) (key : Bytes) : total.at? [key] = total.get? key := by
  rw [Json.at?_cons]
  cases total.get? key with
  | none => rfl
  | some held => exact Json.at?_nil held

mutual

/-- **Merging brings the entries**, one after another. -/
theorem mergeNumericStatistics_eq (total : Json) :
    (delta : Json) →
      mergeNumericStatistics total delta = (statisticEntries delta).foldl bring total.asObject
  | .obj fields => by
    rw [mergeNumericStatistics, statisticEntries]
    exact mergeFields_eq (Json.isObject_asObject total) fields
  | .null | .bool _ | .int _ | .uint _ | .float _ | .str _ | .arr _ => by
    simp [mergeNumericStatistics, statisticEntries, Json.asObject]

theorem mergeFields_eq {total : Json} (h : total.isObject = true) :
    (fields : List (Bytes × Json)) →
      mergeFields total fields = (fieldEntries fields).foldl bring total
  | [] => by simp [mergeFields, fieldEntries]
  | (key, value) :: fields => by
    -- What the member brings, and the total it leaves.
    have hrest : ∀ (merged : Json) (entries : List (List Bytes × Json)),
        entries.foldl bring total = merged → merged.isObject = true →
          mergeFields merged fields = (entries ++ fieldEntries fields).foldl bring total := by
      intro merged entries hmerged hobject
      rw [List.foldl_append, hmerged]
      exact mergeFields_eq hobject fields
    have hcounter : ∀ merged : Json,
        received value (total.at? (readPath ([key], value))) = merged →
        mergeFields (if countable value && key ≠ lit "complete" then total.set key merged else total)
            fields =
          ((if countable value && key ≠ lit "complete" then [([key], value)] else []) ++
            fieldEntries fields).foldl bring total := by
      intro merged hmerged
      split_ifs
      · exact hrest _ _ (by rw [List.foldl_cons, bring_singleton, hmerged]; rfl)
          (Json.isObject_set h _ _)
      · exact hrest _ _ rfl h
    cases value with
    | obj group =>
      have hbring : bring total ([key], .obj []) =
          total.set key ((total.get? key).getD .null).asObject := by
        rw [bring_singleton, readPath_of_not_isFloat rfl, at?_singleton]
        rfl
      rw [mergeFields, fieldEntries, memberEntries]
      refine hrest _ _ ?_ (Json.isObject_set h _ _)
      rw [List.foldl_cons, hbring, foldl_bring_set h (Json.isObject_asObject _)
        ne_nil_of_mem_statisticEntries, mergeNumericStatistics_eq]
    | float x =>
      rw [mergeFields, fieldEntries, memberEntries, jsonValueDouble_eq, ← at?_singleton]
      · exact hcounter _ rfl
      · exact fun _ heq => by cases heq
    | _ =>
      rw [mergeFields, fieldEntries, memberEntries, numericStatistic_eq, ← at?_singleton]
      · exact hcounter _ rfl
      all_goals exact fun _ heq => by cases heq

end

end Entries

/-! ### The sum of counters -/

/-- The doubles among the counters. -/
def doublesOf (counters : List Json) : List Double :=
  counters.filterMap fun | .float x => some x | _ => none

/-- The integers among the counters, added up as far as an `int64_t` goes. -/
def integersSum (counters : List Json) : Int :=
  min (counters.map nonnegativeJsonInteger).sum int64Max

/-- The sum of a key's counters: an integer, or a double once there is one. -/
def countersSum [DoubleSum] (counters : List Json) : Option Json :=
  if counters = [] then none
  else if doublesOf counters = [] then some (.int (Int64.ofInt (integersSum counters)))
  else some (.float
    ((doublesOf counters).foldl DoubleSum.cappedSum (Double.ofInt (integersSum counters))))

/-- The counter a total holds under a path. -/
def counterAt (total : Json) (path : List Bytes) : Option Json := (total.at? path).filter isNumber

/-- The counters some entries bring to a path. -/
def counterValues (entries : List (List Bytes × Json)) (path : List Bytes) : List Json :=
  (entries.filter fun e => e.1 = path && !e.2.isObject).map Prod.snd

theorem nonnegativeJsonInteger_range (value : Json) :
    0 ≤ nonnegativeJsonInteger value ∧ nonnegativeJsonInteger value ≤ int64Max := by
  have hmax : int64Max = 2 ^ 63 - 1 := rfl
  cases value with
  | uint n =>
    rw [nonnegativeJsonInteger]
    omega
  | int n =>
    have hlt := n.toInt_lt
    rw [nonnegativeJsonInteger, nonnegative_eq]
    omega
  | _ =>
    rw [nonnegativeJsonInteger]
    · omega
    all_goals exact fun _ heq => by cases heq

theorem integersSum_range (counters : List Json) :
    0 ≤ integersSum counters ∧ integersSum counters ≤ int64Max := by
  have hsum : 0 ≤ (counters.map nonnegativeJsonInteger).sum := by
    refine List.sum_nonneg fun n hn => ?_
    obtain ⟨value, -, rfl⟩ := List.mem_map.mp hn
    exact (nonnegativeJsonInteger_range value).1
  have hmax : int64Max = 2 ^ 63 - 1 := rfl
  rw [integersSum]
  omega

/-- One more counter is one more summand. -/
theorem integersSum_snoc (counters : List Json) (value : Json) :
    integersSum (counters ++ [value]) =
      saturatingNonnegativeAdd (integersSum counters) (nonnegativeJsonInteger value) := by
  have hvalue := nonnegativeJsonInteger_range value
  have hcounters := integersSum_range counters
  rw [saturatingNonnegativeAdd_eq, integersSum, List.map_append, List.sum_append,
    List.map_singleton, List.sum_singleton]
  rw [integersSum] at hcounters ⊢
  omega

/-- The integer of a sum without doubles. -/
theorem elim_countersSum [DoubleSum] {counters : List Json} {held : Option Json}
    (h : held.filter isNumber = countersSum counters) (hdoubles : doublesOf counters = []) :
    held.elim 0 nonnegativeJsonInteger = integersSum counters := by
  rw [countersSum, if_pos hdoubles] at h
  by_cases hnil : counters = []
  · rw [if_pos hnil] at h
    subst hnil
    have hzero : integersSum [] = 0 := by decide
    rw [hzero]
    rcases held with - | value
    · rfl
    · cases value <;> first | rfl | cases h
  · rw [if_neg hnil] at h
    rw [Option.filter_eq_some_iff] at h
    have hrange := integersSum_range counters
    have hmax : int64Max = 2 ^ 63 - 1 := rfl
    rw [h.1, Option.elim_some, nonnegativeJsonInteger,
      Int64.toInt_ofInt_of_le (by omega) (by omega), nonnegative_eq]
    omega

/-- The double of a sum. -/
theorem heldDouble_countersSum [DoubleSum] {counters : List Json} {held : Option Json}
    (h : held.filter isNumber = countersSum counters) :
    heldDouble held =
      (doublesOf counters).foldl DoubleSum.cappedSum (Double.ofInt (integersSum counters)) := by
  rw [countersSum] at h
  by_cases hnil : counters = []
  · rw [if_pos hnil] at h
    subst hnil
    have hzero : Double.ofInt (integersSum []) = ⟨0⟩ := by decide
    show heldDouble held = Double.ofInt (integersSum [])
    rw [hzero]
    rcases held with - | value
    · rfl
    · cases value <;> first | rfl | cases h
  · rw [if_neg hnil] at h
    by_cases hdoubles : doublesOf counters = []
    · rw [if_pos hdoubles, Option.filter_eq_some_iff] at h
      have hrange := integersSum_range counters
      have hmax : int64Max = 2 ^ 63 - 1 := rfl
      rw [h.1, heldDouble, Int64.toInt_ofInt_of_le (by omega) (by omega), hdoubles, List.foldl_nil]
    · rw [if_neg hdoubles, Option.filter_eq_some_iff] at h
      rw [h.1, heldDouble]

/-- **A counter that is received is added**, if it is not an integer that
comes to a double. -/
theorem received_countersSum [DoubleSum] {counters : List Json} {held : Option Json} {value : Json}
    (h : held.filter isNumber = countersSum counters) (hvalue : value.isObject = false)
    (hdoubles : isFloat value = false → doublesOf counters = []) :
    isNumber (received value held) = true ∧
      some (received value held) = countersSum (counters ++ [value]) := by
  have hsnoc : doublesOf (counters ++ [value]) = doublesOf counters ++ doublesOf [value] :=
    List.filterMap_append
  have hne : counters ++ [value] ≠ [] := by simp
  cases hfloat : isFloat value with
  | true =>
    cases value <;> simp only [isFloat, Bool.false_eq_true] at hfloat
    rename_i x
    have hsame : integersSum (counters ++ [.float x]) = integersSum counters := by
      rw [integersSum_snoc, saturatingNonnegativeAdd_eq, nonnegativeJsonInteger]
      · have hrange := integersSum_range counters
        omega
      all_goals exact fun _ heq => by cases heq
    refine ⟨rfl, ?_⟩
    rw [countersSum, if_neg hne, hsnoc, if_neg (by simp [doublesOf]), hsame, List.foldl_append,
      ← heldDouble_countersSum h]
    rfl
  | false =>
    have hreceived : received value held = .int (Int64.ofInt (saturatingNonnegativeAdd
        (held.elim 0 nonnegativeJsonInteger) (nonnegativeJsonInteger value))) := by
      cases value with
      | float x => cases hfloat
      | obj fields => cases hvalue
      | _ => rfl
    have hnone : doublesOf [value] = [] := by
      cases value <;> first | rfl | cases hfloat
    rw [hreceived, elim_countersSum h (hdoubles hfloat), ← integersSum_snoc]
    refine ⟨rfl, ?_⟩
    have hnil : doublesOf (counters ++ [value]) = [] := by
      rw [hsnoc, hdoubles hfloat, hnone]
      rfl
    rw [countersSum, if_neg hne, if_pos hnil]

/-! ### Runs -/

/-- An entry may follow another: no group arrives where a counter is, no
counter where a group of counters is, and no integer where a double is; and a
double whose key holds a NUL finds no counter, neither in its place nor where
its total is read. -/
def Fits (earlier later : List Bytes × Json) : Prop :=
  (earlier.2.isObject = false → earlier.1 <+: later.1 →
    later.1 = earlier.1 ∧ later.2.isObject = false) ∧
  (earlier.2.isObject = false → later.2.isObject = false → later.1 <+: earlier.1 →
    later.1 = earlier.1) ∧
  (isFloat earlier.2 = true → later.1 = earlier.1 → isFloat later.2 = true) ∧
  (earlier.2.isObject = false → readPath later ≠ later.1 →
    earlier.1 ≠ later.1 ∧ earlier.1 ≠ readPath later)

instance : DecidableRel Fits := fun earlier later => by
  have hread : Decidable (earlier.2.isObject = false → readPath later ≠ later.1 →
    earlier.1 ≠ later.1 ∧ earlier.1 ≠ readPath later) := inferInstance
  unfold Fits
  infer_instance

variable {entries : List (List Bytes × Json)} {e : List Bytes × Json} {path : List Bytes}

theorem mem_counterValues {value : Json} :
    value ∈ counterValues entries path ↔ (path, value) ∈ entries ∧ value.isObject = false := by
  simp only [counterValues, List.mem_map, List.mem_filter, Bool.and_eq_true, decide_eq_true_eq,
    Bool.not_eq_true']
  constructor
  · rintro ⟨⟨_, _⟩, ⟨hmem, rfl, hvalue⟩, rfl⟩
    exact ⟨hmem, hvalue⟩
  · rintro ⟨hmem, hvalue⟩
    exact ⟨(path, value), ⟨hmem, rfl, hvalue⟩, rfl⟩

/-- No counter is under a path that no fitting one can be under. -/
theorem counterValues_eq_nil
    (h : ∀ x ∈ entries, x.2.isObject = false → x.1 ≠ path) : counterValues entries path = [] := by
  rw [List.eq_nil_iff_forall_not_mem]
  intro value hvalue
  obtain ⟨hmem, hvalue⟩ := mem_counterValues.mp hvalue
  exact h _ hmem hvalue rfl

theorem counterValues_snoc_other (h : ¬(e.1 = path ∧ e.2.isObject = false)) :
    counterValues (entries ++ [e]) path = counterValues entries path := by
  rw [counterValues, List.filter_append, List.filter_cons_of_neg (by simpa using h),
    List.filter_nil, List.append_nil]
  rfl

theorem counterValues_snoc_self (h : e.2.isObject = false) :
    counterValues (entries ++ [e]) e.1 = counterValues entries e.1 ++ [e.2] := by
  rw [counterValues, List.filter_append, List.filter_cons_of_pos (by simpa using h),
    List.filter_nil, List.map_append]
  rfl

theorem not_isNumber_of_isObject {j : Json} (h : j.isObject = true) : ¬isNumber j = true := by
  cases j <;> simp_all [isNumber, Json.isObject]

section Runs

variable [DoubleSum]

/-- A total that holds the sums of the counters brought to it. -/
def Counted (entries : List (List Bytes × Json)) (total : Json) : Prop :=
  total.isObject = true ∧
    ∀ path, path ≠ [] → counterAt total path = countersSum (counterValues entries path)

/-- A fitting counter finds the sum of those that came before it, wherever its
total is read. -/
theorem Counted.read {total : Json} (h : Counted entries total) (hpath : e.1 ≠ [])
    (hfits : ∀ x ∈ entries, Fits x e) :
    (total.at? (readPath e)).filter isNumber = countersSum (counterValues entries e.1) := by
  by_cases hread : readPath e = e.1
  · rw [hread]
    exact h.2 e.1 hpath
  · have hnone : ∀ path, path = e.1 ∨ path = readPath e → counterValues entries path = [] := by
      intro path hpath
      refine counterValues_eq_nil fun x hx hcounter hx' => ?_
      obtain ⟨hself, hcut⟩ := (hfits x hx).2.2.2 hcounter hread
      rcases hpath with rfl | rfl
      · exact hself hx'
      · exact hcut hx'
    have hcounted := h.2 (readPath e) (readPath_ne_nil hpath)
    rw [hnone _ (Or.inr rfl)] at hcounted
    rw [hnone _ (Or.inl rfl)]
    exact hcounted

/-- **One entry.**  A fitting entry keeps every total the sum of its
counters. -/
theorem Counted.bring {total : Json} (h : Counted entries total) (hpath : e.1 ≠ [])
    (hfits : ∀ x ∈ entries, Fits x e) : Counted (entries ++ [e]) (bring total e) := by
  obtain ⟨hobject, hcounted⟩ := h
  obtain ⟨key, value⟩ := e
  refine ⟨Json.isObject_writeAt hobject _ _, fun path hne => ?_⟩
  by_cases hwithin : key <+: path
  · obtain ⟨rest, rfl⟩ := hwithin
    have hat : (UAgent.bring total (key, value)).at? (key ++ rest) =
        (received value (total.at? (readPath (key, value)))).at? rest :=
      Json.at?_writeAt_append hobject hpath _ rest
    cases hvalue : value.isObject with
    | true =>
      -- A group: what was in it stays, and there was no counter in its place.
      have hreceived : received value (total.at? (readPath (key, value))) =
          ((total.at? key).getD .null).asObject := by
        cases value <;> first | rfl | cases hvalue
      rw [counterValues_snoc_other (fun h => absurd (h.2.symm.trans hvalue) (by decide)), counterAt,
        hat, hreceived]
      by_cases hrest : rest = []
      · subst hrest
        rw [List.append_nil, counterValues_eq_nil, Json.at?_nil, Option.filter_some, if_neg]
        · rfl
        · exact not_isNumber_of_isObject (Json.isObject_asObject _)
        · rintro x hx hcounter rfl
          exact absurd (((hfits x hx).1 hcounter List.prefix_rfl).2.symm.trans hvalue) (by decide)
      · rw [Json.at?_asObject_getD _ hrest, ← Json.at?_append]
        exact hcounted _ hne
    | false =>
      by_cases hrest : rest = []
      · subst hrest
        have hdoubles : isFloat value = false → doublesOf (counterValues entries key) = [] := by
          intro hinteger
          rw [doublesOf, List.filterMap_eq_nil_iff]
          intro x hx
          have hx := (mem_counterValues.mp hx).1
          cases x with
          | float x => exact absurd (((hfits _ hx).2.2.1 rfl rfl).symm.trans hinteger) (by decide)
          | _ => rfl
        have hread := @Counted.read entries (key, value) _ total ⟨hobject, hcounted⟩ hpath hfits
        obtain ⟨hnumber, hsum⟩ := received_countersSum hread hvalue hdoubles
        rw [List.append_nil] at hat ⊢
        rw [counterAt, hat, Json.at?_nil, Option.filter_some, if_pos hnumber, hsum]
        rw [counterValues_snoc_self (e := (key, value)) hvalue]
      · have hleaf : (received value (total.at? (readPath (key, value)))).isObject = false := by
          cases value <;> first | rfl | cases hvalue
        have hlonger : key ++ rest ≠ key := by simpa using hrest
        rw [counterAt, hat, Json.at?_of_not_isObject hleaf hrest,
          counterValues_snoc_other (fun h => hlonger h.1.symm), counterValues_eq_nil]
        · rfl
        · rintro x hx hcounter hx'
          have hsame := (hfits x hx).2.1 hcounter hvalue (hx' ▸ List.prefix_append key rest)
          exact hlonger (hx'.symm.trans hsame.symm)
  · by_cases habove : path <+: key
    · obtain ⟨rest, rfl⟩ := habove
      have hrest : rest ≠ [] := by
        rintro rfl
        exact hwithin (by simp)
      obtain ⟨group, hgroup, hisObject⟩ :=
        @Json.at?_writeAt_prefix _ _ rest hobject hne hrest
          fun _ => received value (total.at? (readPath (path ++ rest, value)))
      have hlonger : path ++ rest ≠ path := by simpa using hrest
      rw [counterAt, UAgent.bring, hgroup, Option.filter_some,
        if_neg (not_isNumber_of_isObject hisObject), counterValues_snoc_other (fun h => hlonger h.1),
        counterValues_eq_nil]
      · rfl
      · rintro x hx hcounter rfl
        exact hlonger ((hfits x hx).1 hcounter (List.prefix_append _ _)).1
    · have hat : (UAgent.bring total (key, value)).at? path = total.at? path :=
        Json.at?_writeAt_other hobject hwithin habove _
      rw [counterAt, hat, counterValues_snoc_other]
      · exact hcounted path hne
      · rintro ⟨rfl, -⟩
        exact hwithin List.prefix_rfl

theorem counted_nil : Counted [] (.obj []) := by
  refine ⟨rfl, fun path hne => ?_⟩
  rcases path with - | ⟨key, path⟩
  · exact absurd rfl hne
  · rfl

/-- A run of fitting entries. -/
theorem Counted.foldl {total : Json} (h : Counted entries total)
    {more : List (List Bytes × Json)} (hpaths : ∀ e ∈ more, e.1 ≠ [])
    (hfits : (entries ++ more).Pairwise Fits) :
    Counted (entries ++ more) (more.foldl UAgent.bring total) := by
  induction more generalizing entries total with
  | nil =>
    rw [List.append_nil]
    exact h
  | cons e more ih =>
    have hstep := h.bring (hpaths e List.mem_cons_self) fun x hx =>
      (List.pairwise_append.mp hfits).2.2 x hx e List.mem_cons_self
    have hsplit : entries ++ e :: more = entries ++ [e] ++ more := by simp
    rw [hsplit] at hfits ⊢
    exact ih hstep (fun e' he' => hpaths e' (List.mem_cons_of_mem _ he')) hfits

/-- The total of some deltas, merged one after another. -/
def totalStatistics (deltas : List Json) : Json := deltas.foldl mergeNumericStatistics (.obj [])

theorem totalStatistics_eq (deltas : List Json) :
    totalStatistics deltas = (deltas.flatMap statisticEntries).foldl bring (.obj []) := by
  induction deltas using List.reverseRecOn with
  | nil => rfl
  | append_singleton deltas delta ih =>
    rw [totalStatistics, List.foldl_append, ← totalStatistics.eq_def, ih, List.foldl_cons,
      List.foldl_nil, mergeNumericStatistics_eq, Json.asObject_of_isObject, List.flatMap_append,
      List.foldl_append, List.flatMap_singleton]
    exact isObject_foldl_bring rfl _

end Runs

/-- A dollar and a half, then a dollar written as an integer. -/
def lateInteger : List Json :=
  [.ofFields [(lit "cost", .float ⟨0x3FF8000000000000⟩)], .ofFields [(lit "cost", .uint 1)]]

/-- A dollar and a half under a key with a NUL, after three under the key up to
it. -/
def cutKey : List Json :=
  [.ofFields [([0x61], .uint 3)], .ofFields [([0x61, 0], .float ⟨0x3FF8000000000000⟩)]]

/-- A key with a NUL gets what is counted under another. -/
example (sums : DoubleSum) :
    counterAt (totalStatistics cutKey) [[0x61, 0]] =
      some (.float (sums.cappedSum (.ofInt 3) ⟨0x3FF8000000000000⟩)) := by
  rfl

end UAgent
