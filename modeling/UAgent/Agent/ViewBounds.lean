/-
UAgent/Agent/ViewBounds.lean

A checkpoint's nodes merged into a view (`MergeNodes`,
src/agent/view_reducer.cc): every node is upserted, and the view is bounded
once after them.

What is left of the view is what a window onto the merged nodes keeps
(`boundDrop_eq`), so what bounding does is read off the window.  Bounding after
each node instead comes to the same as long as the nodes that follow a cut let
what went lie and what is left grow (`mergeNodes_bounds`); a node that comes
back after it was dropped tells the two apart.
-/
import UAgent.Agent.ViewReducer
import UAgent.Base.Window

namespace UAgent

open Bytes

/-! ### Merging -/

/-- What `MergeNodes` leaves, returns and reports. -/
structure MergeOutcome where
  view : View
  dropped : Nat
  patches : List NodePatch

/-- One node of a checkpoint. -/
def Change.merge (change : Change) (node : Json) : Change :=
  let placed := UAgent.upsert change.nodes node
  { change with
    nodes := placed.1
    changed := if placed.2 then change.changed ++ [idOf node] else change.changed }

/-- `MergeNodes` -/
def mergeNodes (view : View) (nodes : List Json) : MergeOutcome :=
  let change := nodes.foldl Change.merge { nodes := view.nodes }
  let bounded := boundView { view with nodes := change.nodes }
  { view := bounded
    dropped := boundDrop change.nodes
    patches := patchesOf bounded.nodes change.changed }

/-- The nodes merged one at a time, each followed by the bound. -/
def mergeOneByOne (view : View) (nodes : List Json) : View :=
  nodes.foldl (fun view node => (mergeNodes view [node]).view) view

/-- The nodes merged, and not bounded. -/
def unbounded (held nodes : List Json) : List Json :=
  nodes.foldl (fun held node => (upsert held node).1) held

theorem unbounded_concat (held nodes : List Json) (node : Json) :
    unbounded held (nodes ++ [node]) = (upsert (unbounded held nodes) node).1 := by
  rw [unbounded, List.foldl_append]
  rfl

theorem mergeOneByOne_concat (view : View) (nodes : List Json) (node : Json) :
    mergeOneByOne view (nodes ++ [node]) =
      (mergeNodes (mergeOneByOne view nodes) [node]).view := by
  rw [mergeOneByOne, List.foldl_append]
  rfl

theorem nodes_foldl_merge (change : Change) (nodes : List Json) :
    (nodes.foldl Change.merge change).nodes = unbounded change.nodes nodes := by
  induction nodes generalizing change with
  | nil => rfl
  | cons node nodes ih => exact ih (change.merge node)

theorem mergeNodes_view (view : View) (nodes : List Json) :
    (mergeNodes view nodes).view = boundView { view with nodes := unbounded view.nodes nodes } := by
  rw [mergeNodes, nodes_foldl_merge]

theorem mergeNodes_dropped (view : View) (nodes : List Json) :
    (mergeNodes view nodes).dropped = boundDrop (unbounded view.nodes nodes) := by
  rw [mergeNodes, nodes_foldl_merge]

theorem mergeNodes_nodes (view : View) (nodes : List Json) :
    (mergeNodes view nodes).view.nodes =
      (unbounded view.nodes nodes).drop (mergeNodes view nodes).dropped := by
  rw [mergeNodes_view, mergeNodes_dropped]
  rfl

/-! ### The window -/

def isTurn (node : Json) : Bool := field node (lit "kind") = lit "turn"

/-- Nodes within the bounds of a view. -/
def WithinBounds (nodes : List Json) : Prop :=
  nodes.length ≤ kViewNodes ∧ 16 + (nodes.map jsonEstimatedBytes).sum ≤ kViewBytes

instance : DecidablePred WithinBounds := fun _ => inferInstanceAs (Decidable (_ ∧ _))

theorem withinBounds_nil : WithinBounds [] := by decide

theorem withinBounds_of_suffix (nodes rest : List Json) (h : rest <:+ nodes)
    (hfits : WithinBounds nodes) : WithinBounds rest := by
  obtain ⟨before, rfl⟩ := h
  obtain ⟨hlength, hbytes⟩ := hfits
  rw [List.length_append] at hlength
  rw [List.map_append, List.sum_append] at hbytes
  exact ⟨by omega, by omega⟩

/-- The estimate of nodes that is no more than a `size_t` holds is a sum. -/
theorem estimated_eq {nodes : List Json} (h : jsonEstimatedBytes (.arr nodes) < sizeMax) :
    jsonEstimatedBytes (.arr nodes) = 16 + (nodes.map jsonEstimatedBytes).sum := by
  have hsum : jsonEstimatedBytes (.arr nodes) =
      saturatingAdd 16 (nodes.map jsonEstimatedBytes).sum :=
    estimatedItems_eq nodes (by decide)
  rw [hsum, saturatingAdd] at h ⊢
  omega

/-- A part of the nodes is estimated no larger. -/
theorem estimated_le_append (before nodes : List Json) :
    jsonEstimatedBytes (.arr nodes) ≤ jsonEstimatedBytes (.arr (before ++ nodes)) := by
  have hsum : ∀ items, jsonEstimatedBytes (.arr items) =
      saturatingAdd 16 (items.map jsonEstimatedBytes).sum :=
    fun items => estimatedItems_eq items (by decide)
  rw [hsum, hsum, List.map_append, List.sum_append, saturatingAdd, saturatingAdd]
  omega

theorem overBounds_eq (nodes : List Json) :
    overBounds (16 + (nodes.map jsonEstimatedBytes).sum) nodes =
      Window.excess WithinBounds nodes := by
  induction nodes with
  | nil => rfl
  | cons node rest ih =>
    have hless : 16 + ((node :: rest).map jsonEstimatedBytes).sum -
        min (16 + ((node :: rest).map jsonEstimatedBytes).sum) (jsonEstimatedBytes node) =
          16 + (rest.map jsonEstimatedBytes).sum := by
      rw [List.map_cons, List.sum_cons]
      omega
    rw [overBounds, Window.excess, hless, ih]
    by_cases hfits : WithinBounds (node :: rest)
    · rw [if_pos hfits, if_neg]
      rintro (hlength | hbytes)
      · exact Nat.not_lt.mpr hfits.1 hlength
      · exact Nat.not_lt.mpr hfits.2 hbytes
    · rw [if_neg hfits, if_pos]
      by_contra hin
      rw [not_or, Nat.not_lt, Nat.not_lt] at hin
      exact hfits hin

/-- `BoundView` keeps a window onto the nodes. -/
theorem boundDrop_eq {nodes : List Json} (h : jsonEstimatedBytes (.arr nodes) < sizeMax) :
    boundDrop nodes = Window.surplus WithinBounds isTurn nodes := by
  rw [boundDrop, estimated_eq h, overBounds_eq, Window.surplus, Window.toMark]
  split_ifs
  · rfl
  · have hturn : (fun node => decide (field node (lit "kind") = lit "turn")) = isTurn := rfl
    rw [hturn]
    cases (nodes.drop (Window.excess WithinBounds nodes)).findIdx? isTurn <;> rfl

/-! ### Nodes that follow a cut -/

/-- A node that lets what went of a view lie and makes what is left no
smaller: a turn at its start stays, and a first turn does not come. -/
structure FollowsCut (went left : List Json) (node : Json) : Prop where
  apart : ∀ x ∈ went, idOf x ≠ idOf node ∧
    (findNode left (idOf node) = none → goesBefore node x = false)
  bytes : jsonEstimatedBytes (.arr left) ≤ jsonEstimatedBytes (.arr (upsert left node).1)
  head : (∃ turn ∈ left.head?, isTurn turn = true) →
    ∃ turn ∈ (upsert left node).1.head?, isTurn turn = true
  first : (∀ x ∈ left, isTurn x = false) → ∀ x ∈ (upsert left node).1, isTurn x = false

theorem length_upsert_le (nodes : List Json) (node : Json) :
    nodes.length ≤ (upsert nodes node).1.length := by
  rw [upsert]
  split
  case h_1 =>
    have hsplit := List.takeWhile_append_dropWhile (p := fun x => !goesBefore node x) (l := nodes)
    rw [List.placeBefore, List.length_append, List.length_cons, ← hsplit, List.length_append]
    simp
  case h_2 pre found post hfound =>
    obtain ⟨rfl, -, -⟩ := List.firstMatch_eq_some.mp hfound
    simp

/-- A node is upserted behind what it has nothing to do with. -/
theorem upsert_append {went left : List Json} {node : Json}
    (h : ∀ x ∈ went, idOf x ≠ idOf node ∧
      (findNode left (idOf node) = none → goesBefore node x = false)) :
    (upsert (went ++ left) node).1 = went ++ (upsert left node).1 := by
  have hfind : findNode (went ++ left) (idOf node) =
      (findNode left (idOf node)).map fun cut => (went ++ cut.1, cut.2) :=
    List.firstMatch_append fun x hx => by simpa using (h x hx).1
  cases hleft : findNode left (idOf node) with
  | none =>
    rw [hleft] at hfind
    rw [upsert, upsert, hfind, hleft]
    exact List.placeBefore_append_left fun x hx => (h x hx).2 hleft
  | some cut =>
    rw [hleft] at hfind
    rw [upsert, upsert, hfind, hleft]
    exact List.append_assoc _ _ _

/-- What goes of the nodes grown so is what went and what goes of the rest. -/
theorem FollowsCut.boundDrop_eq {nodes : List Json} {node : Json}
    (h : FollowsCut (nodes.take (boundDrop nodes)) (nodes.drop (boundDrop nodes)) node)
    (hsome : boundDrop nodes ≠ 0) (hsize : jsonEstimatedBytes (.arr nodes) < sizeMax)
    (hgrown : jsonEstimatedBytes (.arr (upsert nodes node).1) < sizeMax) :
    (upsert nodes node).1.drop (boundDrop nodes) =
        (upsert (nodes.drop (boundDrop nodes)) node).1 ∧
      boundDrop (upsert nodes node).1 =
        boundDrop nodes + boundDrop (upsert (nodes.drop (boundDrop nodes)) node).1 := by
  have hdrop : boundDrop nodes ≤ nodes.length := by
    rw [UAgent.boundDrop_eq hsize]
    exact Window.surplus_le_length
  obtain ⟨went, left, hwent, hsplit⟩ : ∃ went left : List Json,
      went.length = boundDrop nodes ∧ nodes = went ++ left :=
    ⟨nodes.take (boundDrop nodes), nodes.drop (boundDrop nodes), by simpa using hdrop,
      (List.take_append_drop _ _).symm⟩
  generalize hd : boundDrop nodes = d at *
  subst hsplit hwent
  rw [List.take_left, List.drop_left] at h
  rw [upsert_append h.apart] at hgrown ⊢
  rw [List.drop_left, List.drop_left]
  refine ⟨rfl, ?_⟩
  have hleft := (estimated_le_append went left).trans_lt hsize
  have hrest := (estimated_le_append went (upsert left node).1).trans_lt hgrown
  rw [UAgent.boundDrop_eq hgrown, UAgent.boundDrop_eq hrest]
  rw [UAgent.boundDrop_eq hsize] at hd
  refine Window.surplus_grown withinBounds_nil withinBounds_of_suffix
    (fun hnil => hsome (by rw [hnil]; rfl)) hd ?_ h.head h.first
  refine Window.excess_le_of_fits withinBounds_nil withinBounds_of_suffix
    (hd ▸ Window.excess_le_surplus) ?_
  rintro ys - ⟨hlength, hbytes⟩
  have hno := length_upsert_le left node
  have hsmaller := h.bytes
  rw [estimated_eq hleft, estimated_eq hrest] at hsmaller
  rw [List.length_append] at hlength
  rw [List.map_append, List.sum_append] at hbytes
  constructor
  · rw [List.length_append]
    omega
  · rw [List.map_append, List.sum_append]
    omega

/-! ### A merge and its bound -/

/-- Each node that follows a cut grows the view; the nodes before it were
merged and bounded. -/
def AllFollow (view : View) (nodes : List Json) : Prop :=
  ∀ before node after, nodes = before ++ node :: after → before ≠ [] →
    (mergeNodes view before).dropped = 0 ∨
      FollowsCut ((unbounded view.nodes before).take (mergeNodes view before).dropped)
        (mergeNodes view before).view.nodes node

/-- The estimates of all nodes that are held on the way are held by a `size_t`. -/
def Measured (view : View) (nodes : List Json) : Prop :=
  ∀ before after, nodes = before ++ after →
    jsonEstimatedBytes (.arr (unbounded view.nodes before)) < sizeMax

theorem AllFollow.of_concat {view : View} {nodes : List Json} {last : Json}
    (h : AllFollow view (nodes ++ [last])) : AllFollow view nodes := by
  rintro before node after rfl
  exact h before node (after ++ [last]) (by simp)

theorem Measured.of_concat {view : View} {nodes : List Json} {last : Json}
    (h : Measured view (nodes ++ [last])) : Measured view nodes := by
  rintro before after rfl
  exact h before (after ++ [last]) (by simp)

/-- One node more after a merge. -/
theorem mergeNodes_concat {view : View} {nodes : List Json} {last : Json} (hsome : nodes ≠ [])
    (hfollow : AllFollow view (nodes ++ [last])) (hmeasured : Measured view (nodes ++ [last])) :
    (mergeNodes view (nodes ++ [last])).dropped = (mergeNodes view nodes).dropped +
        (mergeNodes (mergeNodes view nodes).view [last]).dropped ∧
      (mergeNodes view (nodes ++ [last])).view.nodes =
        (mergeNodes (mergeNodes view nodes).view [last]).view.nodes := by
  have hleft : (mergeNodes view nodes).view.nodes = _ := mergeNodes_nodes view nodes
  have hlast : (mergeNodes (mergeNodes view nodes).view [last]).view.nodes = _ :=
    mergeNodes_nodes _ [last]
  rw [hlast, mergeNodes_nodes, mergeNodes_dropped (mergeNodes view nodes).view,
    mergeNodes_dropped view (nodes ++ [last]), unbounded_concat, hleft]
  show _ = _ + boundDrop (upsert _ last).1 ∧
    _ = (upsert _ last).1.drop (boundDrop (upsert _ last).1)
  by_cases hzero : (mergeNodes view nodes).dropped = 0
  · rw [hzero, List.drop_zero, Nat.zero_add]
    exact ⟨rfl, rfl⟩
  · have hfollows := (hfollow nodes last [] rfl hsome).resolve_left hzero
    rw [hleft, mergeNodes_dropped] at hfollows
    rw [mergeNodes_dropped] at hzero ⊢
    obtain ⟨hrest, hdrop⟩ := hfollows.boundDrop_eq hzero (hmeasured nodes [last] rfl)
      (unbounded_concat view.nodes nodes last ▸ hmeasured (nodes ++ [last]) [] (by simp))
    refine ⟨hdrop, ?_⟩
    rw [hdrop, ← List.drop_drop, hrest]

/-- A view says that older nodes exist once any were dropped. -/
theorem mergeNodes_more (view : View) (nodes : List Json) :
    (mergeNodes view nodes).view.more = true ↔
      (mergeNodes view nodes).dropped ≠ 0 ∨ view.more = true := by
  rw [mergeNodes_view, mergeNodes_dropped]
  show (if boundDrop _ = 0 then view.more else true) = true ↔ _
  split_ifs with hzero <;> simp [hzero]

/-- `before` is told by the nodes where a saved one is left. -/
theorem boundView_before {view : View}
    (h : ∃ node ∈ (boundView view).nodes, node.contains (lit "sequence") = true) :
    (boundView view).before =
      ((boundView view).nodes.find? fun node => node.contains (lit "sequence")).map sequenceOf := by
  obtain ⟨node, hmem, hsaved⟩ := h
  have hnodes : (boundView view).nodes = view.nodes.drop (boundDrop view.nodes) := rfl
  rw [hnodes] at hmem ⊢
  cases hfind : (view.nodes.drop (boundDrop view.nodes)).find?
      fun node => node.contains (lit "sequence") with
  | none => exact absurd hsaved (List.find?_eq_none.mp hfind node hmem)
  | some first =>
    simp only [boundView, hfind]
    rfl

/-- Bounded after each node, the view holds what it holds bounded once. -/
theorem mergeOneByOne_eq {view : View} {nodes : List Json} (hsome : nodes ≠ [])
    (hfollow : AllFollow view nodes) (hmeasured : Measured view nodes) :
    (mergeOneByOne view nodes).nodes = (mergeNodes view nodes).view.nodes ∧
      (mergeOneByOne view nodes).more = (mergeNodes view nodes).view.more := by
  induction nodes using List.reverseRecOn with
  | nil => exact absurd rfl hsome
  | append_singleton nodes last ih =>
    rw [mergeOneByOne_concat]
    rcases eq_or_ne nodes [] with rfl | hnodes
    · exact ⟨rfl, rfl⟩
    obtain ⟨hdropped, hleft⟩ := mergeNodes_concat hnodes hfollow hmeasured
    obtain ⟨ihnodes, ihmore⟩ := ih hnodes hfollow.of_concat hmeasured.of_concat
    have hsame : ∀ {first second : View}, first.nodes = second.nodes →
        (mergeNodes first [last]).dropped = (mergeNodes second [last]).dropped ∧
          (mergeNodes first [last]).view.nodes = (mergeNodes second [last]).view.nodes := by
      intro first second heq
      rw [mergeNodes_nodes, mergeNodes_nodes, mergeNodes_dropped, mergeNodes_dropped, heq]
      exact ⟨rfl, rfl⟩
    obtain ⟨hcount, hsameNodes⟩ := hsame ihnodes
    refine ⟨hsameNodes.trans hleft.symm, Bool.eq_iff_iff.mpr ?_⟩
    rw [mergeNodes_more, mergeNodes_more, hdropped, hcount, ihmore, mergeNodes_more, ne_eq, ne_eq,
      ne_eq, Nat.add_eq_zero_iff]
    tauto

/-- A merge of one node or more ends with a bound. -/
theorem mergeOneByOne_before {view : View} {nodes : List Json} (hsome : nodes ≠ [])
    (h : ∃ node ∈ (mergeOneByOne view nodes).nodes, node.contains (lit "sequence") = true) :
    (mergeOneByOne view nodes).before =
      ((mergeOneByOne view nodes).nodes.find? fun node =>
        node.contains (lit "sequence")).map sequenceOf := by
  rcases List.eq_nil_or_concat nodes with rfl | ⟨nodes, last, rfl⟩
  · exact absurd rfl hsome
  · rw [List.concat_eq_append, mergeOneByOne_concat, mergeNodes_view] at h ⊢
    exact boundView_before h

/-- **Merging and bounding.**  A merge leaves the merged nodes less the oldest,
within the bounds, and at the start of a turn if any went and a turn is left.
It leaves the view that bounding after each node leaves, if every node that
follows a cut grows the view and a saved node is left. -/
theorem mergeNodes_bounds (view : View) (nodes : List Json) (hmeasured : Measured view nodes) :
    (mergeNodes view nodes).view.nodes =
        (unbounded view.nodes nodes).drop (mergeNodes view nodes).dropped ∧
      (mergeNodes view nodes).view.nodes.length ≤ kViewNodes ∧
      jsonEstimatedBytes (.arr (mergeNodes view nodes).view.nodes) ≤ kViewBytes ∧
      ((mergeNodes view nodes).view.more = true ↔
        (mergeNodes view nodes).dropped ≠ 0 ∨ view.more = true) ∧
      ((mergeNodes view nodes).dropped ≠ 0 →
        (∃ turn ∈ (mergeNodes view nodes).view.nodes, isTurn turn = true) →
        ∃ turn ∈ (mergeNodes view nodes).view.nodes.head?, isTurn turn = true) ∧
      (nodes ≠ [] → AllFollow view nodes →
        (∃ node ∈ (mergeNodes view nodes).view.nodes, node.contains (lit "sequence") = true) →
        mergeOneByOne view nodes = (mergeNodes view nodes).view) := by
  have hsize := hmeasured nodes [] (List.append_nil nodes).symm
  have hfits : WithinBounds (mergeNodes view nodes).view.nodes := by
    rw [mergeNodes_nodes, mergeNodes_dropped, boundDrop_eq hsize]
    exact Window.fits_drop_surplus withinBounds_nil withinBounds_of_suffix _
  refine ⟨mergeNodes_nodes view nodes, hfits.1, ?_, mergeNodes_more view nodes, ?_, ?_⟩
  · have hleft : jsonEstimatedBytes (.arr (mergeNodes view nodes).view.nodes) < sizeMax := by
      have hpart := estimated_le_append
        ((unbounded view.nodes nodes).take (mergeNodes view nodes).dropped)
        (mergeNodes view nodes).view.nodes
      rw [mergeNodes_nodes, List.take_append_drop] at hpart
      exact (mergeNodes_nodes view nodes ▸ hpart).trans_lt hsize
    rw [estimated_eq hleft]
    exact hfits.2
  · intro hdropped hturn
    rw [mergeNodes_nodes, mergeNodes_dropped, boundDrop_eq hsize] at hturn ⊢
    rw [mergeNodes_dropped, boundDrop_eq hsize] at hdropped
    exact Window.head_marked hdropped hturn
  · intro hsome hfollow hsaved
    obtain ⟨hnodes, hmore⟩ := mergeOneByOne_eq hsome hfollow hmeasured
    have hbefore : (mergeOneByOne view nodes).before = (mergeNodes view nodes).view.before := by
      rw [mergeOneByOne_before hsome (hnodes ▸ hsaved), hnodes]
      rw [mergeNodes_view] at hsaved ⊢
      exact (boundView_before hsaved).symm
    generalize mergeOneByOne view nodes = one at hnodes hmore hbefore
    generalize (mergeNodes view nodes).view = all at hnodes hmore hbefore
    obtain ⟨_, _, _⟩ := one
    rw [View.mk.injEq]
    exact ⟨hnodes, hmore, hbefore⟩

/-- A saved message. -/
def savedMessage (n : Nat) : Json :=
  .ofFields [(lit "id", .str [UInt8.ofNat n]), (lit "kind", .str (lit "message")),
    (lit "sequence", .uint (UInt64.ofNat (n + 1)))]

/-- A view as full as it may be. -/
def fullView : View := { nodes := (List.range 64).map savedMessage }

/-- Two more messages push out the oldest two. -/
theorem mergeNodes_bounds_fullView :
    mergeOneByOne fullView [savedMessage 64, savedMessage 65] =
      (mergeNodes fullView [savedMessage 64, savedMessage 65]).view := by
  have hmeasured : Measured fullView [savedMessage 64, savedMessage 65] := by
    intro before after heq
    have hall : ∀ before ∈ [savedMessage 64, savedMessage 65].inits,
        jsonEstimatedBytes (.arr (unbounded fullView.nodes before)) < sizeMax := by
      decide +kernel
    exact hall before ((List.mem_inits _ _).mpr ⟨after, heq.symm⟩)
  have hfollow : AllFollow fullView [savedMessage 64, savedMessage 65] := by
    intro before node after heq hsome
    obtain ⟨rfl, rfl⟩ : before = [savedMessage 64] ∧ node = savedMessage 65 := by
      rcases before with - | ⟨first, before⟩
      · exact absurd rfl hsome
      obtain ⟨rfl, htail⟩ := List.cons.inj heq
      rcases before with - | ⟨second, before⟩
      · exact ⟨rfl, (List.cons.inj htail).1.symm⟩
      · exact absurd (congrArg List.length (List.cons.inj htail).2) (by simp)
    have hno : ∀ x ∈ (mergeNodes fullView [savedMessage 64]).view.nodes, isTurn x = false := by
      decide +kernel
    refine .inr ⟨by decide +kernel, by decide +kernel, fun ⟨turn, hmem, hturn⟩ => ?_, fun _ => ?_⟩
    · rw [hno turn (List.mem_of_mem_head? hmem)] at hturn
      cases hturn
    · decide +kernel
  exact (mergeNodes_bounds fullView _ hmeasured).2.2.2.2.2 (by simp) hfollow (by decide +kernel)

/-- A streamed node, not saved yet. -/
def streamed (n : Nat) : Json :=
  .ofFields [(lit "id", .str [UInt8.ofNat n]), (lit "kind", .str (lit "message"))]

/-- A new node drops the oldest, and the oldest comes again: after the bound it
is a node of its own, before the bound it is the one that goes. -/
theorem mergeOneByOne_ne :
    let view : View := { nodes := (List.range 64).map streamed }
    let nodes := [streamed 64, streamed 0]
    (mergeOneByOne view nodes).nodes.getLast? = some (streamed 0) ∧
      (mergeNodes view nodes).view.nodes.getLast? = some (streamed 64) ∧
      mergeOneByOne view nodes ≠ (mergeNodes view nodes).view := by
  intro view nodes
  have hone : (mergeOneByOne view nodes).nodes.getLast? = some (streamed 0) := by decide +kernel
  have hall : (mergeNodes view nodes).view.nodes.getLast? = some (streamed 64) := by
    decide +kernel
  refine ⟨hone, hall, fun heq => ?_⟩
  rw [heq, hall] at hone
  revert hone
  decide

end UAgent
