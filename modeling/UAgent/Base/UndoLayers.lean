/-
UAgent/Base/UndoLayers.lean

Undo of one thing, a turn at a time.  Every turn that changed the thing has a
layer with what the thing was before the turn's first change and after its
last; the layers lie newest first, each on what the next older one left.

A system whose undo step takes the newest layer off has none left after undoing
turns newest first, every layer's among them (`undo_all`); then what is there
is what was there at the start.
-/
import Mathlib.Order.Lattice
import Mathlib.Data.List.Pairwise

/-- What a turn did to a thing. -/
structure Layer (τ α : Type*) where
  turn : τ
  before : α
  after : α

namespace Layers

variable {τ α : Type*}

section Record

variable [DecidableEq τ]

/-- A change, in `turn`, of what is `now` there. -/
def record (turn : τ) (now after : α) : List (Layer τ α) → List (Layer τ α)
  | [] => [⟨turn, now, after⟩]
  | layer :: layers =>
    if layer.turn = turn then { layer with after } :: layers
    else ⟨turn, now, after⟩ :: layer :: layers

/-- The newest layer is taken off when it is the turn's. -/
def undo (layers : List (Layer τ α)) (turn : τ) : List (Layer τ α) :=
  match layers with
  | [] => []
  | layer :: layers => if layer.turn = turn then layers else layer :: layers

theorem record_of_ne {turn : τ} {now after : α} {layers : List (Layer τ α)}
    (h : ∀ layer ∈ layers, layer.turn ≠ turn) :
    record turn now after layers = ⟨turn, now, after⟩ :: layers := by
  rcases layers with - | ⟨layer, layers⟩
  · rfl
  · exact if_neg (h layer List.mem_cons_self)

/-- The turn's layer comes first. -/
theorem exists_record (turn : τ) (now after : α) (layers : List (Layer τ α)) :
    ∃ before rest, record turn now after layers = ⟨turn, before, after⟩ :: rest ∧
      ∀ layer ∈ rest, layer ∈ layers := by
  rcases layers with - | ⟨layer, layers⟩
  · exact ⟨now, [], rfl, fun _ h => h⟩
  · rw [record]
    split_ifs with hsame
    · exact ⟨layer.before, layers, by rw [← hsame], fun _ h => List.mem_cons_of_mem layer h⟩
    · exact ⟨now, layer :: layers, rfl, fun _ h => h⟩

theorem undo_of_ne {layers : List (Layer τ α)} {turn : τ}
    (h : ∀ layer ∈ layers, layer.turn ≠ turn) : undo layers turn = layers := by
  rcases layers with - | ⟨layer, layers⟩
  · rfl
  · exact if_neg (h layer List.mem_cons_self)

end Record

/-- The layers lie on `start`, and `now` is what the newest one left. -/
def Stacked [LT τ] (start : α) : α → List (Layer τ α) → Prop
  | now, [] => now = start
  | now, layer :: layers =>
    now = layer.after ∧ (∀ older ∈ layers, older.turn < layer.turn) ∧
      Stacked start layer.before layers

section Order

variable [LinearOrder τ] {start now after : α} {layers : List (Layer τ α)} {turn : τ}

/-- A change in the newest turn. -/
theorem Stacked.record (h : Stacked start now layers) (hturn : ∀ layer ∈ layers, layer.turn ≤ turn) :
    Stacked start after (Layers.record turn now after layers) := by
  rcases layers with - | ⟨layer, layers⟩
  · exact ⟨rfl, fun _ hmem => absurd hmem List.not_mem_nil, h⟩
  · obtain ⟨hnow, holder, hbelow⟩ := h
    rw [Layers.record]
    split_ifs with hsame
    · exact ⟨rfl, holder, hbelow⟩
    · have hlt : layer.turn < turn := lt_of_le_of_ne (hturn layer List.mem_cons_self) hsame
      refine ⟨rfl, fun older hmem => ?_, hnow, holder, hbelow⟩
      rcases List.mem_cons.mp hmem with rfl | hmem
      · exact hlt
      · exact (holder older hmem).trans hlt

/-- The layer of the newest turn is the first. -/
theorem Stacked.eq_cons_of_mem (h : Stacked start now layers)
    (hturn : ∀ layer ∈ layers, layer.turn ≤ turn) {layer : Layer τ α} (hmem : layer ∈ layers)
    (hlayer : layer.turn = turn) : ∃ older, layers = layer :: older := by
  rcases layers with - | ⟨first, layers⟩
  · exact absurd hmem List.not_mem_nil
  · rcases List.mem_cons.mp hmem with rfl | hmem
    · exact ⟨layers, rfl⟩
    · have hlt := h.2.1 layer hmem
      rw [hlayer] at hlt
      exact absurd (hturn first List.mem_cons_self) (not_le.mpr hlt)

/-- The turn that has been undone is above all that is left. -/
theorem Stacked.lt_of_mem_undo (h : Stacked start now layers)
    (hturn : ∀ layer ∈ layers, layer.turn ≤ turn) {layer : Layer τ α}
    (hmem : layer ∈ undo layers turn) : layer.turn < turn := by
  rcases layers with - | ⟨first, layers⟩
  · exact absurd hmem List.not_mem_nil
  · rw [undo] at hmem
    split_ifs at hmem with hsame
    · exact hsame ▸ h.2.1 layer hmem
    · have hlt : first.turn < turn := lt_of_le_of_ne (hturn first List.mem_cons_self) hsame
      rcases List.mem_cons.mp hmem with rfl | hmem
      · exact hlt
      · exact (h.2.1 layer hmem).trans hlt

theorem mem_of_mem_undo {layer : Layer τ α} (h : layer ∈ undo layers turn) : layer ∈ layers := by
  rcases layers with - | ⟨first, layers⟩
  · exact h
  · rw [undo] at h
    split_ifs at h
    · exact List.mem_cons_of_mem first h
    · exact h

/-- **Undoing newest first.**  `I` ties a system to layers; a step for a turn
that is above all layers takes the turn's layer off. -/
theorem undo_all {σ υ : Type*} {step : σ → υ → σ} {turnOf : υ → τ}
    {I : σ → List (Layer τ α) → Prop}
    (stacked : ∀ s layers, I s layers → ∃ now, Stacked start now layers) {s : σ} {undos : List υ}
    (next : ∀ s layers, ∀ u ∈ undos, I s layers → (∀ layer ∈ layers, layer.turn ≤ turnOf u) →
      I (step s u) (undo layers (turnOf u)))
    (hnewest : (undos.map turnOf).Pairwise (· > ·)) (h : I s layers)
    (hall : ∀ layer ∈ layers, layer.turn ∈ undos.map turnOf) : I (undos.foldl step s) [] := by
  induction undos generalizing s layers with
  | nil =>
    have hnone : layers = [] :=
      List.eq_nil_iff_forall_not_mem.mpr fun layer hmem => absurd (hall layer hmem) List.not_mem_nil
    exact hnone ▸ h
  | cons u undos ih =>
    rw [List.map_cons, List.pairwise_cons] at hnewest
    have hturn : ∀ layer ∈ layers, layer.turn ≤ turnOf u := by
      intro layer hmem
      rcases List.mem_cons.mp (hall layer hmem) with heq | hlater
      · exact heq.le
      · exact (hnewest.1 _ hlater).le
    obtain ⟨now, hstacked⟩ := stacked s layers h
    refine ih (fun s layers u' hu' => next s layers u' (List.mem_cons_of_mem u hu')) hnewest.2
      (next s layers u List.mem_cons_self h hturn) fun layer hmem => ?_
    have hlt := hstacked.lt_of_mem_undo hturn hmem
    rcases List.mem_cons.mp (hall layer (mem_of_mem_undo hmem)) with heq | hlater
    · exact absurd heq hlt.ne
    · exact hlater

end Order

end Layers
