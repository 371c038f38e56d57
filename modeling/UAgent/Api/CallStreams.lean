/-
UAgent/Api/CallStreams.lean

What a stream of tool calls is collected to.

`Streams` says which fragments bring which calls, each fragment known by its
slot; what is gathered from them is the calls, in whatever order fragments of
different calls come (`gather_pieces`).  The decoder finds the slots when
fragments carry an index, or when each fragment carries the id of its call or
goes on with the newest one (`InTurn`).

Main result: `collectToolCalls_streams`.  Such a stream is collected to its
calls, and any stream to calls with ids of their own.
-/
import UAgent.Api.ToolCalls
import UAgent.Base.Gather

namespace UAgent

open Bytes

/-! ### The pieces of a call -/

/-- What a fragment brings of its call's arguments. -/
def CallFragment.args (fragment : CallFragment) : Bytes :=
  (fragment.function.map FunctionFragment.arguments).getD []

/-- A fragment of a call: the id and the name come whole, or not at all. -/
structure IsPieceOf (call : StreamedCall) (fragment : CallFragment) : Prop where
  id : fragment.id = [] ∨ fragment.id = call.id
  name : ∀ found ∈ fragment.function, found.name = [] ∨ found.name = call.name

/-- Fragments, each with the slot of its call, that bring `calls`: in slot
order, each with its id and name and its arguments cut into pieces. -/
structure Streams (calls : List (Int × StreamedCall)) (pieces : List (Int × CallFragment)) :
    Prop where
  sorted : Assoc.Sorted calls
  piece : ∀ p ∈ pieces, ∃ call, (p.1, call) ∈ calls ∧ IsPieceOf call p.2
  id : ∀ c ∈ calls, ∃ fragment ∈ Assoc.itemsOf c.1 pieces, fragment.id = c.2.id
  name : ∀ c ∈ calls, ∃ fragment ∈ Assoc.itemsOf c.1 pieces, ∃ found ∈ fragment.function,
    found.name = c.2.name
  args : ∀ c ∈ calls, (Assoc.itemsOf c.1 pieces).flatMap CallFragment.args = c.2.args
  plain : ∀ c ∈ calls, c.2.malformed = []

/-- A text that comes whole or not at all is not changed by coming again. -/
theorem mergeStreamIdentity_piece {whole target fragment : Bytes}
    (htarget : target = [] ∨ target = whole) (hfragment : fragment = [] ∨ fragment = whole) :
    (mergeStreamIdentity target fragment = [] ∨ mergeStreamIdentity target fragment = whole) ∧
      (target = whole ∨ fragment = whole → mergeStreamIdentity target fragment = whole) := by
  rw [mergeStreamIdentity]
  by_cases hnil : fragment = []
  · rw [if_pos hnil]
    refine ⟨htarget, ?_⟩
    rintro (h | h)
    · exact h
    · rw [← h, hnil] at htarget ⊢
      exact htarget.elim id id
  · obtain rfl := hfragment.resolve_left hnil
    have hstart : target = [] ∨ target <+: fragment := by
      rcases htarget with h | h
      · exact .inl h
      · exact .inr (by rw [h])
    rw [if_neg hnil, if_pos hstart]
    exact ⟨.inr rfl, fun _ => rfl⟩

/-- What the pieces of a call make of what came of it before. -/
structure PartOf (call target : StreamedCall) : Prop where
  id : target.id = [] ∨ target.id = call.id
  name : target.name = [] ∨ target.name = call.name
  plain : target.malformed = []

section Pieces

variable {call target : StreamedCall}

/-- One piece: what has come stays, and what it brings is there. -/
theorem PartOf.merge (h : PartOf call target) {fragment : CallFragment}
    (hpiece : IsPieceOf call fragment) :
    PartOf call (mergeFragment target fragment) ∧
      (target.id = call.id ∨ fragment.id = call.id → (mergeFragment target fragment).id = call.id) ∧
      (target.name = call.name ∨ (∃ found ∈ fragment.function, found.name = call.name) →
        (mergeFragment target fragment).name = call.name) ∧
      (mergeFragment target fragment).args = target.args ++ fragment.args := by
  have hid := mergeStreamIdentity_piece h.id hpiece.id
  rcases hfunction : fragment.function with - | found
  · simp only [mergeFragment, CallFragment.args, hfunction]
    exact ⟨⟨hid.1, h.name, h.plain⟩, hid.2, fun hname => hname.resolve_right (by simp), by simp⟩
  · have hname := mergeStreamIdentity_piece h.name (hpiece.name found (by rw [hfunction]; rfl))
    simp only [mergeFragment, CallFragment.args, hfunction]
    exact ⟨⟨hid.1, hname.1, h.plain⟩, hid.2, fun h => hname.2 (by simpa using h), by simp⟩

/-- All pieces: what any of them brings is there. -/
theorem PartOf.mergeAll (h : PartOf call target) {fragments : List CallFragment}
    (hpieces : ∀ fragment ∈ fragments, IsPieceOf call fragment) :
    PartOf call (fragments.foldl mergeFragment target) ∧
      (target.id = call.id ∨ (∃ fragment ∈ fragments, fragment.id = call.id) →
        (fragments.foldl mergeFragment target).id = call.id) ∧
      (target.name = call.name ∨
          (∃ fragment ∈ fragments, ∃ found ∈ fragment.function, found.name = call.name) →
        (fragments.foldl mergeFragment target).name = call.name) ∧
      (fragments.foldl mergeFragment target).args =
        target.args ++ fragments.flatMap CallFragment.args := by
  induction fragments generalizing target with
  | nil =>
    exact ⟨h, fun h => h.resolve_right (by simp), fun h => h.resolve_right (by simp), by simp⟩
  | cons fragment fragments ih =>
    obtain ⟨hpart, hid, hname, hargs⟩ := h.merge (hpieces fragment List.mem_cons_self)
    obtain ⟨hpart', hid', hname', hargs'⟩ :=
      ih hpart fun other hother => hpieces other (List.mem_cons_of_mem _ hother)
    refine ⟨hpart', fun h => hid' ?_, fun h => hname' ?_, ?_⟩
    · rcases h with h | ⟨other, hother, h⟩
      · exact .inl (hid (.inl h))
      · rcases List.mem_cons.mp hother with rfl | hother
        · exact .inl (hid (.inr h))
        · exact .inr ⟨other, hother, h⟩
    · rcases h with h | ⟨other, hother, h⟩
      · exact .inl (hname (.inl h))
      · rcases List.mem_cons.mp hother with rfl | hother
        · exact .inl (hname (.inr h))
        · exact .inr ⟨other, hother, h⟩
    · rw [List.foldl_cons, hargs', hargs, List.flatMap_cons, List.append_assoc]

end Pieces

/-! ### Gathering them -/

/-- What a fragment makes of what its slot holds. -/
def putFragment (held : Option StreamedCall) (fragment : CallFragment) : StreamedCall :=
  mergeFragment (held.getD {}) fragment

theorem gathered_putFragment (held : Option StreamedCall) {fragments : List CallFragment}
    (h : fragments ≠ []) :
    Assoc.gathered putFragment held fragments =
      some (fragments.foldl mergeFragment (held.getD {})) := by
  obtain ⟨fragment, fragments, rfl⟩ := List.exists_cons_of_ne_nil h
  rw [Assoc.gathered, List.foldl_cons, List.foldl_cons]
  generalize hstart : mergeFragment (held.getD {}) fragment = target
  rw [putFragment, hstart]
  clear h hstart
  induction fragments generalizing target with
  | nil => rfl
  | cons fragment fragments ih => exact ih _

variable {calls : List (Int × StreamedCall)} {pieces : List (Int × CallFragment)}

/-- **The pieces are gathered to the calls.** -/
theorem gather_pieces (h : Streams calls pieces) : Assoc.gather putFragment [] pieces = calls := by
  refine Assoc.gather_eq putFragment h.sorted pieces fun slot => ?_
  rcases hlookup : Assoc.lookup slot calls with - | call
  · -- no piece is of another slot
    have hnone : Assoc.itemsOf slot pieces = [] := by
      rw [Assoc.itemsOf, List.map_eq_nil_iff, List.filter_eq_nil_iff]
      intro p hp hslot
      obtain ⟨call, hcall, -⟩ := h.piece p hp
      rw [of_decide_eq_true hslot] at hcall
      exact Assoc.lookup_eq_none.mp hlookup (List.mem_map_of_mem hcall)
    rw [hnone]
    rfl
  · have hcall := Assoc.mem_of_lookup hlookup
    have hpieces : ∀ fragment ∈ Assoc.itemsOf slot pieces, IsPieceOf call fragment := by
      intro fragment hfragment
      obtain ⟨p, hp, rfl⟩ := List.mem_map.mp hfragment
      obtain ⟨hp, hslot⟩ := List.mem_filter.mp hp
      obtain ⟨call', hcall', hpiece⟩ := h.piece p hp
      rw [of_decide_eq_true hslot] at hcall'
      exact Assoc.eq_of_mem h.sorted hcall' hcall ▸ hpiece
    have hne : Assoc.itemsOf slot pieces ≠ [] := by
      obtain ⟨fragment, hfragment, -⟩ := h.id _ hcall
      exact List.ne_nil_of_mem hfragment
    have hstart : PartOf call {} := ⟨.inl rfl, .inl rfl, rfl⟩
    obtain ⟨hpart, hid, hname, hargs⟩ := hstart.mergeAll hpieces
    rw [gathered_putFragment none hne]
    refine congrArg some ?_
    rw [StreamedCall.mk.injEq]
    refine ⟨hid (.inr (h.id _ hcall)), hname (.inr (h.name _ hcall)), ?_,
      hpart.plain.trans (h.plain _ hcall).symm⟩
    exact hargs.trans (h.args _ hcall)

/-! ### Finding the slots -/

/-- Every fragment carries the index of its call, or a number behind it. -/
def Indexed (pieces : List (Int × CallFragment)) : Prop :=
  ∀ p ∈ pieces, p.2.index = p.1 ∧ 0 ≤ p.1

/-- No fragment carries an index; `begun` calls have begun.  A fragment with an
id is of a call that has begun or begins the next, one without goes on with the
newest. -/
def InTurn (begun : Nat) : List (Int × CallFragment) → Prop
  | [] => True
  | (slot, fragment) :: pieces =>
    fragment.index < 0 ∧ 0 ≤ slot ∧
      if fragment.id = [] then slot + 1 = begun ∧ InTurn begun pieces
      else if slot = begun then InTurn (begun + 1) pieces
      else slot < begun ∧ InTurn begun pieces

instance decidableInTurn :
    (begun : Nat) → (pieces : List (Int × CallFragment)) → Decidable (InTurn begun pieces)
  | _, [] => isTrue trivial
  | begun, (slot, fragment) :: pieces =>
    have := decidableInTurn begun pieces
    have := decidableInTurn (begun + 1) pieces
    inferInstanceAs (Decidable (fragment.index < 0 ∧ 0 ≤ slot ∧
      if fragment.id = [] then slot + 1 = begun ∧ InTurn begun pieces
      else if slot = begun then InTurn (begun + 1) pieces
      else slot < begun ∧ InTurn begun pieces))

theorem addFragments_indexed (h : Indexed pieces) (held : List (Int × StreamedCall)) :
    (pieces.map Prod.snd).foldl addFragment held = Assoc.gather putFragment held pieces := by
  induction pieces generalizing held with
  | nil => rfl
  | cons p pieces ih =>
    obtain ⟨hindex, hpos⟩ := h p List.mem_cons_self
    have hslot : fragmentSlot held p.2 = p.1 := by
      rw [fragmentSlot, hindex, if_neg (Int.not_lt.mpr hpos)]
    rw [List.map_cons, List.foldl_cons, addFragment, hslot,
      ih (fun other hother => h other (List.mem_cons_of_mem _ hother))]
    rfl

/-- The slots of the calls that have begun are the first ones, and each holds
the id of its call. -/
structure Begun (calls : List (Int × StreamedCall)) (begun : Nat)
    (held : List (Int × StreamedCall)) : Prop where
  sorted : Assoc.Sorted held
  slots : ∀ slot, slot ∈ held.map Prod.fst ↔ 0 ≤ slot ∧ slot < begun
  id : ∀ e ∈ held, ∃ call, (e.1, call) ∈ calls ∧ e.2.id = call.id

theorem begun_nil (calls : List (Int × StreamedCall)) : Begun calls 0 [] where
  sorted := List.Pairwise.nil
  slots slot := by
    simp only [List.map_nil, List.not_mem_nil, false_iff]
    omega
  id e he := absurd he List.not_mem_nil

section Begun

variable {begun : Nat} {held : List (Int × StreamedCall)}

theorem Begun.ne_nil (h : Begun calls begun held) (hpos : 0 < begun) : held ≠ [] := by
  rintro rfl
  have hslot := (h.slots 0).mpr ⟨le_rfl, by exact_mod_cast hpos⟩
  exact absurd hslot List.not_mem_nil

/-- The newest slot is the last one. -/
theorem Begun.newest (h : Begun calls begun held) (hpos : 0 < begun) :
    ∃ newest, held.getLast? = some newest ∧ newest.1 + 1 = begun := by
  obtain ⟨before, newest, rfl⟩ := List.eq_nil_or_concat' held |>.resolve_left (h.ne_nil hpos)
  refine ⟨newest, List.getLast?_concat, ?_⟩
  have hsorted := h.sorted
  rw [Assoc.Sorted, List.map_append, List.pairwise_append] at hsorted
  have hlast := (h.slots newest.1).mp (by simp)
  obtain ⟨e, he, hslot⟩ := List.mem_map.mp ((h.slots (begun - 1 : Int)).mpr (by omega))
  rcases List.mem_append.mp he with he | he
  · have hlt := hsorted.2.2 e.1 (List.mem_map_of_mem he) newest.1 (by simp)
    omega
  · rw [List.mem_singleton.mp he] at hslot
    omega

/-- The id of a call finds its slot, once the call has begun. -/
theorem Begun.find (h : Begun calls begun held) (hcalls : Assoc.Sorted calls)
    (hids : (calls.map (·.2.id)).Nodup) {slot : Int} {call : StreamedCall}
    (hcall : (slot, call) ∈ calls) :
    (0 ≤ slot ∧ slot < begun → ∃ e, held.find? (fun e => e.2.id = call.id) = some e ∧ e.1 = slot) ∧
      (¬(0 ≤ slot ∧ slot < begun) → held.find? (fun e => e.2.id = call.id) = none) := by
  have hsame {e : Int × StreamedCall} (he : e ∈ held) (hid : e.2.id = call.id) : e.1 = slot := by
    obtain ⟨call', hcall', hid'⟩ := h.id e he
    have heq := List.inj_on_of_nodup_map hids hcall' hcall (hid'.symm.trans hid)
    exact congrArg Prod.fst heq
  refine ⟨fun hbegun => ?_, fun hnot => ?_⟩
  · obtain ⟨e, he, hslot⟩ := List.mem_map.mp ((h.slots slot).mpr hbegun)
    have hid : e.2.id = call.id := by
      obtain ⟨call', hcall', hid'⟩ := h.id e he
      rw [hslot] at hcall'
      exact Assoc.eq_of_mem hcalls hcall' hcall ▸ hid'
    rcases hfind : held.find? (fun e => e.2.id = call.id) with - | found
    · exact absurd hid (by simpa using List.find?_eq_none.mp hfind e he)
    · exact ⟨found, hfind, hsame (List.mem_of_find?_eq_some hfind)
        (by simpa using List.find?_some hfind)⟩
  · refine List.find?_eq_none.mpr fun e he hid => hnot ?_
    rw [← (h.slots slot), ← hsame he (by simpa using hid)]
    exact List.mem_map_of_mem he

/-- A fragment put to its slot: the slot has begun, and holds its call's id. -/
theorem Begun.merge (h : Begun calls begun held) (hcalls : Assoc.Sorted calls) {slot : Int}
    {call : StreamedCall} (hcall : (slot, call) ∈ calls) {fragment : CallFragment}
    (hpiece : IsPieceOf call fragment) {next : Nat} (hslot : 0 ≤ slot ∧ slot < next)
    (hnext : next = begun ∨ slot = begun ∧ next = begun + 1 ∧ fragment.id = call.id) :
    Begun calls next (mergeInto held slot fragment) where
  sorted := Assoc.sorted_insert h.sorted _ _
  slots other := by
    rw [mergeInto, Assoc.mem_keys_insert, h.slots]
    omega
  id e he := by
    rcases Assoc.eq_or_mem_of_mem_insert he with rfl | he
    · refine ⟨call, hcall, ?_⟩
      have hheld : ((Assoc.lookup slot held).getD {}).id = [] ∨
          ((Assoc.lookup slot held).getD {}).id = call.id := by
        rcases hlookup : Assoc.lookup slot held with - | target
        · exact .inl rfl
        · obtain ⟨call', hcall', hid⟩ := h.id _ (Assoc.mem_of_lookup hlookup)
          exact .inr (Assoc.eq_of_mem hcalls hcall' hcall ▸ hid)
      have hmerged : (mergeFragment ((Assoc.lookup slot held).getD {}) fragment).id =
          mergeStreamIdentity ((Assoc.lookup slot held).getD {}).id fragment.id := by
        rw [mergeFragment]
        cases fragment.function <;> rfl
      refine hmerged.trans ((mergeStreamIdentity_piece hheld hpiece.id).2 ?_)
      rcases hnext with rfl | ⟨-, -, hid⟩
      · obtain ⟨e, he, hkey⟩ := List.mem_map.mp ((h.slots slot).mpr hslot)
        obtain ⟨call', hcall', hid⟩ := h.id e he
        rw [hkey] at hcall'
        have hlookup : Assoc.lookup slot held = some e.2 :=
          Assoc.lookup_of_mem h.sorted (hkey ▸ he)
        rw [hlookup]
        exact .inl (Assoc.eq_of_mem hcalls hcall' hcall ▸ hid)
      · exact .inr hid
    · exact h.id e he

end Begun

/-- **The ids find the slots**, as long as a fragment without one goes on with
the newest call. -/
theorem addFragments_inTurn (hcalls : Assoc.Sorted calls) (hids : (calls.map (·.2.id)).Nodup)
    (hpieces : ∀ p ∈ pieces, ∃ call, (p.1, call) ∈ calls ∧ IsPieceOf call p.2) {begun : Nat}
    (hturn : InTurn begun pieces) {held : List (Int × StreamedCall)} (h : Begun calls begun held) :
    (pieces.map Prod.snd).foldl addFragment held = Assoc.gather putFragment held pieces := by
  induction pieces generalizing begun held with
  | nil => rfl
  | cons p pieces ih =>
    obtain ⟨slot, fragment⟩ := p
    obtain ⟨call, hcall, hpiece⟩ := hpieces _ List.mem_cons_self
    obtain ⟨hindex, hpos, hturn⟩ := hturn
    have hstep {next : Nat} (hslot : 0 ≤ slot ∧ slot < next)
        (hnext : next = begun ∨ slot = begun ∧ next = begun + 1 ∧ fragment.id = call.id)
        (hrest : InTurn next pieces) (hfound : streamToolSlot held fragment.id = slot) :
        (((slot, fragment) :: pieces).map Prod.snd).foldl addFragment held =
          Assoc.gather putFragment held ((slot, fragment) :: pieces) := by
      rw [List.map_cons, List.foldl_cons, addFragment, fragmentSlot, if_pos hindex, hfound]
      exact ih (fun other hother => hpieces other (List.mem_cons_of_mem _ hother)) hrest
        (h.merge hcalls hcall hpiece hslot hnext)
    split_ifs at hturn with hnil hnew
    · -- it goes on with the newest call
      obtain ⟨hslot, hrest⟩ := hturn
      obtain ⟨newest, hlast, hnewest⟩ := h.newest (by omega)
      refine hstep ⟨hpos, by omega⟩ (.inl rfl) hrest ?_
      simp only [streamToolSlot, hlast, if_pos hnil]
      omega
    · -- it begins the next call
      have hid := hpiece.id.resolve_left hnil
      refine hstep ⟨hpos, by omega⟩ (.inr ⟨hnew, rfl, hid⟩) hturn ?_
      rcases Nat.eq_zero_or_pos begun with rfl | hbegun
      · have hempty : held = [] := by
          by_contra hne
          obtain ⟨e, he⟩ := List.exists_mem_of_ne_nil held hne
          have hslot := (h.slots e.1).mp (List.mem_map_of_mem he)
          omega
        rw [hempty, hnew]
        rfl
      · obtain ⟨newest, hlast, hnewest⟩ := h.newest hbegun
        have hfind := (h.find hcalls hids hcall).2 (by omega)
        rw [← hid] at hfind
        simp only [streamToolSlot, hlast, if_neg hnil, hfind]
        omega
    · -- its call has begun
      obtain ⟨hlt, hrest⟩ := hturn
      have hid := hpiece.id.resolve_left hnil
      obtain ⟨newest, hlast, -⟩ := h.newest (by omega)
      obtain ⟨e, hfind, hslot⟩ := (h.find hcalls hids hcall).1 ⟨hpos, hlt⟩
      refine hstep ⟨hpos, hlt⟩ (.inl rfl) hrest ?_
      rw [← hid] at hfind
      simp only [streamToolSlot, hlast, if_neg hnil, hfind, hslot]

/-! ### Events -/

section Collecting

variable {parse : Bytes → Option Json}

theorem decodeEvent_calls (stream : ChatStream) (value : Json) :
    (decodeEvent parse stream value).calls =
      (eventFragments parse value).foldl addFragment stream.calls := by
  rw [decodeEvent, eventFragments]
  split_ifs with herror
  · rfl
  · rcases firstChoice value with - | choice
    · rfl
    · dsimp only [Option.map_some, Option.getD_some]
      congr 1
      rcases jsonStringRef choice (lit "finish_reason") with - | reason <;> rfl

/-- The slots hold what all fragments make, whatever events they come in. -/
theorem decodeEvents_calls (events : List Json) :
    (decodeEvents parse events).calls =
      (events.flatMap (eventFragments parse)).foldl addFragment [] := by
  have hfrom (stream : ChatStream) :
      (events.foldl (decodeEvent parse) stream).calls =
        (events.flatMap (eventFragments parse)).foldl addFragment stream.calls := by
    induction events generalizing stream with
    | nil => rfl
    | cons value events ih =>
      rw [List.foldl_cons, ih, decodeEvent_calls, List.flatMap_cons, List.foldl_append]
  exact hfrom {}

/-! ### Ids -/

theorem idCandidate_injective (base : Bytes) : Function.Injective (idCandidate base) := by
  have hlonger (n : Nat) : idCandidate base (n + 1) ≠ base := fun h => by
    have hlength := congrArg List.length h
    rw [idCandidate, List.length_append, List.length_append] at hlength
    have hdash : (lit "-").length = 1 := rfl
    omega
  rintro (- | m) (- | n) h
  · rfl
  · exact absurd h.symm (hlonger n)
  · exact absurd h (hlonger m)
  · have hdigits := Json.decimal_injective (List.append_cancel_left h)
    omega

/-- No id is left twice. -/
theorem collectedId_not_mem (ids : List Bytes) (index : Int) (id : Bytes) :
    collectedId ids index id ∉ ids :=
  firstFree_not_mem (idCandidate_injective _)

theorem collectedId_ne_nil (ids : List Bytes) (index : Int) (id : Bytes) :
    collectedId ids index id ≠ [] := by
  have hbase : (if id = [] then lit "uagent-call-" ++ Json.decimalInt index else id) ≠ [] := by
    split_ifs with hid
    · exact List.append_ne_nil_of_left_ne_nil (by decide) _
    · exact hid
  have hcandidate (n : Nat) :
      idCandidate (if id = [] then lit "uagent-call-" ++ Json.decimalInt index else id) n ≠ [] := by
    cases n with
    | zero => exact hbase
    | succ n =>
      rw [idCandidate, List.append_assoc]
      exact List.append_ne_nil_of_left_ne_nil hbase _
  rw [collectedId]
  obtain ⟨n, hn⟩ := firstFree_mem ids (idCandidate
    (if id = [] then lit "uagent-call-" ++ Json.decimalInt index else id))
  exact hn ▸ hcandidate n

/-- An id that is free is kept. -/
theorem collectedId_eq_self {ids : List Bytes} {id : Bytes} (hne : id ≠ []) (hfree : id ∉ ids)
    (index : Int) : collectedId ids index id = id := by
  rw [collectedId, if_neg hne]
  exact firstFree_eq_self hfree

/-! ### Collecting -/

/-- What is relied on of parsing: the empty object is one, and blanks are none. -/
structure ParsesObjects (parse : Bytes → Option Json) : Prop where
  empty : isJsonObject parse (lit "\x7b\x7d") = true
  blank : ∀ args : Bytes, args.all isArgSpace = true → isJsonObject parse args = false

/-- What a call becomes: its name stays, and its arguments when they are an
object; its id stays unless an earlier call was left with it. -/
structure CollectedAs (parse : Bytes → Option Json) (ids : List Bytes) (call kept : StreamedCall) :
    Prop where
  name : kept.name = call.name
  named : call.name ≠ []
  fresh : kept.id ∉ ids
  some_id : kept.id ≠ []
  id : call.id ≠ [] → call.id ∉ ids → kept.id = call.id
  args : isJsonObject parse kept.args = true
  object : isJsonObject parse (callArguments call) = true →
    kept.args = callArguments call ∧ kept.malformed = call.malformed
  other : isJsonObject parse (callArguments call) = false →
    kept.args = lit "\x7b\x7d" ∧ kept.malformed = callArguments call

/-- The calls a stream is collected to, `ids` being left before: only a
nameless call is dropped, or the last of a response that was cut. -/
inductive Collects (parse : Bytes → Option Json) (cut : Bool) :
    List Bytes → List (Int × StreamedCall) → List StreamedCall → Prop where
  | done (ids) : Collects parse cut ids [] []
  | cutOff (ids call) (hcut : cut = true)
      (hpart : call.2.name = [] ∨ isJsonObject parse (callArguments call.2) = false) :
      Collects parse cut ids [call] []
  | nameless (ids call streamed calls) (hname : call.2.name = [])
      (hrest : Collects parse cut ids streamed calls) :
      Collects parse cut ids (call :: streamed) calls
  | kept (ids call streamed kept calls) (hkept : CollectedAs parse ids call.2 kept)
      (hrest : Collects parse cut (kept.id :: ids) streamed calls) :
      Collects parse cut ids (call :: streamed) (kept :: calls)

/-- A call left with the id it is collected under. -/
theorem collectedAs (ids : List Bytes) (index : Int) {call : StreamedCall} (hname : call.name ≠ [])
    {args malformed : Bytes} (hargs : isJsonObject parse args = true)
    (hobject : isJsonObject parse (callArguments call) = true →
      args = callArguments call ∧ malformed = call.malformed)
    (hother : isJsonObject parse (callArguments call) = false →
      args = lit "\x7b\x7d" ∧ malformed = callArguments call) :
    CollectedAs parse ids call
      { call with id := collectedId ids index call.id, args, malformed } where
  name := rfl
  named := hname
  fresh := collectedId_not_mem ids index call.id
  some_id := collectedId_ne_nil ids index call.id
  id hne hfree := collectedId_eq_self hne hfree index
  args := hargs
  object := hobject
  other := hother

/-- Any calls are collected. -/
theorem collectFrom_collects (hparse : ParsesObjects parse) (cut : Bool) (ids : List Bytes)
    (streamed : List (Int × StreamedCall)) :
    Collects parse cut ids streamed (collectFrom parse cut ids streamed).1 := by
  induction streamed generalizing ids with
  | nil => exact .done ids
  | cons e streamed ih =>
    obtain ⟨index, call⟩ := e
    simp only [collectFrom]
    split_ifs with hpart hcut hname
    · obtain ⟨rfl, hcut⟩ := hcut
      exact .cutOff ids (index, call) hcut hpart
    · exact .nameless ids (index, call) streamed _ hname (ih ids)
    · -- what is no object is kept beside an empty one
      have hobject := hpart.resolve_left hname
      refine .kept ids (index, call) streamed _ _ ?_ (ih _)
      exact collectedAs ids index hname hparse.empty
        (fun h => Bool.noConfusion (h.symm.trans hobject)) fun _ => ⟨rfl, rfl⟩
    · obtain ⟨hname, hobject⟩ := not_or.mp hpart
      refine .kept ids (index, call) streamed _ _ ?_ (ih _)
      exact collectedAs ids index hname (Bool.eq_true_of_not_eq_false hobject)
        (fun _ => ⟨rfl, rfl⟩) fun h => absurd h hobject

section Facts

variable {cut : Bool} {taken : List Bytes} {streamed : List (Int × StreamedCall)}
  {calls : List StreamedCall}

theorem Collects.ids (h : Collects parse cut taken streamed calls) :
    (calls.map StreamedCall.id).Nodup ∧ (∀ call ∈ calls, call.id ∉ taken) := by
  induction h with
  | done ids => simp
  | cutOff ids call => simp
  | nameless ids call streamed calls hname hrest ih => exact ih
  | kept ids call streamed kept calls hkept hrest ih =>
    obtain ⟨hnodup, hfresh⟩ := ih
    have hother (other) (h : other ∈ calls) := List.ne_and_not_mem_of_not_mem_cons (hfresh other h)
    refine ⟨List.nodup_cons.mpr ⟨fun hmem => ?_, hnodup⟩, ?_⟩
    · obtain ⟨other, h, heq⟩ := List.mem_map.mp hmem
      exact (hother other h).1 heq
    · exact List.forall_mem_cons.mpr ⟨hkept.fresh, fun other h => (hother other h).2⟩

theorem Collects.good (h : Collects parse cut taken streamed calls) :
    ∀ call ∈ calls, call.id ≠ [] ∧ isJsonObject parse call.args = true := by
  induction h with
  | done ids => simp
  | cutOff ids call => simp
  | nameless ids call streamed calls hname hrest ih => exact ih
  | kept ids call streamed kept calls hkept hrest ih =>
    exact List.forall_mem_cons.mpr ⟨⟨hkept.some_id, hkept.args⟩, ih⟩

end Facts

/-- A call that can be collected as it is. -/
structure IsWhole (parse : Bytes → Option Json) (call : StreamedCall) : Prop where
  id : call.id ≠ []
  name : call.name ≠ []
  args : isJsonObject parse call.args = true

/-- Whole calls with ids of their own are collected as they are. -/
theorem collectFrom_whole (hparse : ParsesObjects parse) (cut : Bool)
    {calls : List (Int × StreamedCall)} {ids : List Bytes}
    (hwhole : ∀ call ∈ calls, IsWhole parse call.2) (hids : (calls.map (·.2.id)).Nodup)
    (hfresh : ∀ call ∈ calls, call.2.id ∉ ids) :
    (collectFrom parse cut ids calls).1 = calls.map Prod.snd := by
  induction calls generalizing ids with
  | nil => rfl
  | cons e calls ih =>
    obtain ⟨index, call⟩ := e
    obtain ⟨hcall, hcalls⟩ := List.forall_mem_cons.mp hwhole
    obtain ⟨hfree, hfresh⟩ := List.forall_mem_cons.mp hfresh
    obtain ⟨hother, hids⟩ := List.nodup_cons.mp hids
    have hargs : callArguments call = call.args :=
      if_neg fun hblank => Bool.false_ne_true ((hparse.blank _ hblank).symm.trans hcall.args)
    have hid : collectedId ids index call.id = call.id := collectedId_eq_self hcall.id hfree index
    have hgood : ¬(call.name = [] ∨ isJsonObject parse call.args = false) := by
      simp [hcall.name, hcall.args]
    have hrest := @ih (call.id :: ids) hcalls hids fun other h =>
      List.not_mem_cons_of_ne_of_not_mem (fun heq => hother (List.mem_map.mpr ⟨other, h, heq⟩))
        (hfresh other h)
    simp only [collectFrom, hargs, hid, if_neg hgood, hrest, List.map_cons]

/-- **What a stream is collected to.**  Fragments that bring whole calls with
ids of their own, in whatever order when they carry an index, or each with its
call's id or going on with the newest call when they carry none, are collected
to those calls.  Any stream is collected to calls with ids of their own and an
object for arguments. -/
theorem collectToolCalls_streams (hparse : ParsesObjects parse) :
    (∀ (calls : List (Int × StreamedCall)) (pieces : List (Int × CallFragment))
        (events : List Json),
      Streams calls pieces → (∀ call ∈ calls, IsWhole parse call.2) →
        (calls.map (·.2.id)).Nodup → Indexed pieces ∨ InTurn 0 pieces →
          events.flatMap (eventFragments parse) = pieces.map Prod.snd →
            (collectToolCalls parse (decodeEvents parse events)).1 = calls.map Prod.snd) ∧
      ∀ stream : ChatStream,
        Collects parse stream.stopCause.cuts [] stream.calls (collectToolCalls parse stream).1 ∧
          ((collectToolCalls parse stream).1.map StreamedCall.id).Nodup ∧
            ∀ call ∈ (collectToolCalls parse stream).1,
              call.id ≠ [] ∧ isJsonObject parse call.args = true := by
  refine ⟨fun calls pieces events hstreams hwhole hids hslots hevents => ?_, fun stream => ?_⟩
  · have hcalls : (decodeEvents parse events).calls = calls := by
      rw [decodeEvents_calls, hevents]
      rcases hslots with hindexed | hturn
      · rw [addFragments_indexed hindexed, gather_pieces hstreams]
      · rw [addFragments_inTurn hstreams.sorted hids hstreams.piece hturn (begun_nil calls),
          gather_pieces hstreams]
    rw [collectToolCalls, hcalls]
    exact collectFrom_whole hparse _ hwhole hids fun _ _ => List.not_mem_nil
  · have hcollects := collectFrom_collects hparse stream.stopCause.cuts [] stream.calls
    exact ⟨hcollects, hcollects.ids.1, hcollects.good⟩

end Collecting

/-! ### Two calls -/

/-- Parsing, for the texts below. -/
def parseBraces (text : Bytes) : Option Json :=
  if text = lit "\x7b\x7d" then some (.obj []) else none

theorem parseBraces_objects : ParsesObjects parseBraces where
  empty := by decide
  blank args h := by
    have hne : args ≠ lit "\x7b\x7d" := by
      rintro rfl
      exact absurd h (by decide)
    rw [isJsonObject, parseBraces, if_neg hne]

/-- The first of two calls without arguments, or the second. -/
def listCall (slot : Int) : StreamedCall :=
  { id := if slot = 0 then lit "a" else lit "b", name := lit "list", args := lit "\x7b\x7d" }

def listCalls : List (Int × StreamedCall) := [(0, listCall 0), (1, listCall 1)]

theorem listCalls_whole : ∀ call ∈ listCalls, IsWhole parseBraces call.2 := by
  refine List.forall_mem_cons.mpr ⟨⟨by decide, by decide, by decide⟩, ?_⟩
  exact List.forall_mem_cons.mpr ⟨⟨by decide, by decide, by decide⟩, by simp⟩

/-- A piece of a call's arguments, with the call's id and name. -/
def listPiece (slot : Int) (args : Bytes) : Int × CallFragment :=
  (slot, { id := (listCall slot).id, function := some { name := lit "list", arguments := args } })

/-- A piece of a call's arguments, with nothing else. -/
def barePiece (slot : Int) (args : Bytes) : Int × CallFragment :=
  (slot, { function := some { arguments := args } })

/-- Pieces of the two calls; the last goes on with the one of its slot. -/
def listPieces (slot : Int) : List (Int × CallFragment) :=
  [listPiece 0 (lit "\x7b"), listPiece 1 (lit "\x7b"), listPiece (1 - slot) (lit "\x7d"),
    listPiece slot [], barePiece slot (lit "\x7d")]

theorem listPiece_of {slot : Int} (hslot : slot = 0 ∨ slot = 1) (args : Bytes) :
    ∃ call, ((listPiece slot args).1, call) ∈ listCalls ∧
      IsPieceOf call (listPiece slot args).2 := by
  refine ⟨listCall slot, ?_, .inr rfl, ?_⟩
  · rcases hslot with rfl | rfl <;> simp [listPiece, listCalls]
  · rintro found ⟨⟩
    exact .inr rfl

theorem listPieces_streams {slot : Int} (hslot : slot = 0 ∨ slot = 1) :
    Streams listCalls (listPieces slot) where
  sorted := by decide
  piece := by
    have hbare : ∃ call, ((barePiece slot (lit "\x7d")).1, call) ∈ listCalls ∧
        IsPieceOf call (barePiece slot (lit "\x7d")).2 := by
      refine ⟨listCall slot, ?_, .inl rfl, ?_⟩
      · rcases hslot with rfl | rfl <;> simp [barePiece, listCalls]
      · rintro found ⟨⟩
        exact .inl rfl
    simp only [listPieces, List.forall_mem_cons]
    exact ⟨listPiece_of (.inl rfl) _, listPiece_of (.inr rfl) _, listPiece_of (by omega) _,
      listPiece_of hslot _, hbare, by simp⟩
  id := by rcases hslot with rfl | rfl <;> decide
  name := by rcases hslot with rfl | rfl <;> decide
  args := by rcases hslot with rfl | rfl <;> decide
  plain := by decide

/-- The event a piece without an index comes in. -/
def pieceEvent (piece : Int × CallFragment) : Json :=
  let found := piece.2.function.getD {}
  let function := [(lit "arguments", .str found.arguments), (lit "name", .str found.name)]
  .obj [(lit "choices", .arr [.obj [(lit "delta", .obj [(lit "tool_calls", .arr [.obj
    [(lit "function", .obj function), (lit "id", .str piece.2.id)]])])]])]

/-- The pieces come in turn when the last goes on with the second call. -/
theorem collectToolCalls_listCalls :
    (collectToolCalls parseBraces (decodeEvents parseBraces ((listPieces 1).map pieceEvent))).1 =
      listCalls.map Prod.snd :=
  (collectToolCalls_streams parseBraces_objects).1 listCalls (listPieces 1)
    ((listPieces 1).map pieceEvent) (listPieces_streams (.inr rfl)) listCalls_whole (by decide)
    (.inr (by decide)) (by decide +kernel)

/-- A piece without an id goes to the newest call even where the piece before
is of another one; and an id made up for a call is taken from a later call that
came with it. -/
theorem collectToolCalls_strays :
    (Streams listCalls (listPieces 0) ∧
        (listPieces 0).IsChain (fun p q => q.2.id = [] → q.1 = p.1) ∧
          ((listPieces 0).map pieceEvent).flatMap (eventFragments parseBraces) =
              (listPieces 0).map Prod.snd ∧
            (collectToolCalls parseBraces
                (decodeEvents parseBraces ((listPieces 0).map pieceEvent))).1.map
              StreamedCall.malformed = [lit "\x7b", lit "\x7b\x7d\x7d"]) ∧
      (collectToolCalls parseBraces
          { calls := [(0, { name := lit "list" }),
              (1, { id := lit "uagent-call-0", name := lit "list" })] }).1.map StreamedCall.id =
        [lit "uagent-call-0", lit "uagent-call-0-2"] := by
  refine ⟨⟨listPieces_streams (.inl rfl), by decide, by decide +kernel, by decide +kernel⟩, ?_⟩
  decide +kernel

end UAgent
