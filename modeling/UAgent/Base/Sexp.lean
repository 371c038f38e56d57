/-
UAgent/Base/Sexp.lean

The tokens of a text of S-expressions: brackets, words, and strings in double
quotes in which a backslash stands before a quote or a backslash that is meant.

A text is put together of pieces.  A piece adds its own tokens where the next
one begins as no word does (`Spells`), or whatever comes next (`Closed`); a
quoted string is closed, and one token whatever it holds (`closed_quote`).
-/
import UAgent.Base.Bytes

namespace Sexp

open Bytes

inductive Token
  | opening
  | closing
  | word (text : Bytes)
  | str (text : Bytes)
deriving DecidableEq

/-- What is being read. -/
inductive Reading
  | blank
  | word (seen : Bytes)
  | str (seen : Bytes)
  | escape (seen : Bytes)
deriving DecidableEq

structure Reader where
  tokens : List Token := []
  reading : Reading := .blank
deriving DecidableEq

/-- What ends a word. -/
def isDelimiter (c : UInt8) : Bool :=
  c = ch '(' || c = ch ')' || c = ch '"' || c = ch ' ' || c = ch '\n'

/-- A byte between tokens. -/
def readBlank (tokens : List Token) (c : UInt8) : Reader :=
  if c = ch '(' then ⟨tokens ++ [.opening], .blank⟩
  else if c = ch ')' then ⟨tokens ++ [.closing], .blank⟩
  else if c = ch '"' then ⟨tokens, .str []⟩
  else if c = ch ' ' ∨ c = ch '\n' then ⟨tokens, .blank⟩
  else ⟨tokens, .word [c]⟩

def read (r : Reader) (c : UInt8) : Reader :=
  match r.reading with
  | .blank => readBlank r.tokens c
  | .word seen =>
    if isDelimiter c then readBlank (r.tokens ++ [.word seen]) c
    else ⟨r.tokens, .word (seen ++ [c])⟩
  | .str seen =>
    if c = ch '"' then ⟨r.tokens ++ [.str seen], .blank⟩
    else if c = ch '\\' then ⟨r.tokens, .escape seen⟩
    else ⟨r.tokens, .str (seen ++ [c])⟩
  | .escape seen => ⟨r.tokens, .str (seen ++ [c])⟩

/-- The tokens of a text; nothing where a string does not end. -/
def tokens (text : Bytes) : Option (List Token) :=
  match text.foldl read {} with
  | ⟨tokens, .blank⟩ => some tokens
  | ⟨tokens, .word seen⟩ => some (tokens ++ [.word seen])
  | _ => none

/-- A byte of a text in double quotes. -/
def escaped (c : UInt8) : Bytes := if c = ch '"' ∨ c = ch '\\' then [ch '\\', c] else [c]

/-- A text in double quotes. -/
def quote (text : Bytes) : Bytes := ch '"' :: text.flatMap escaped ++ [ch '"']

/-! ### Pieces -/

/-- No word goes on into the text. -/
def Begins (text : Bytes) : Prop := ∀ c ∈ text.head?, isDelimiter c = true

/-- The text adds these tokens behind others, whatever comes next. -/
def Closed (text : Bytes) (added : List Token) : Prop :=
  ∀ tokens, text.foldl read ⟨tokens, .blank⟩ = ⟨tokens ++ added, .blank⟩

/-- The text adds them where no word goes on behind it. -/
def Spells (text : Bytes) (added : List Token) : Prop :=
  ∀ tokens rest, Begins rest → rest ≠ [] →
    (text ++ rest).foldl read ⟨tokens, .blank⟩ = rest.foldl read ⟨tokens ++ added, .blank⟩

variable {a b text : Bytes} {s t : List Token} {c : UInt8}

theorem Begins.append (ha : Begins a) (hb : Begins b) : Begins (a ++ b) := by
  cases a with
  | nil => exact hb
  | cons c a => exact ha

theorem closed_nil : Closed [] [] := fun tokens => by
  rw [List.append_nil]
  rfl

theorem Closed.append (ha : Closed a s) (hb : Closed b t) : Closed (a ++ b) (s ++ t) := by
  intro tokens
  rw [List.foldl_append, ha, hb, List.append_assoc]

theorem Closed.spells (h : Closed text t) : Spells text t := fun tokens rest _ _ => by
  rw [List.foldl_append, h]

/-- Anything may stand behind a closed piece. -/
theorem Closed.append_spells (ha : Closed a s) (hb : Spells b t) : Spells (a ++ b) (s ++ t) := by
  intro tokens rest hrest hne
  rw [List.append_assoc, List.foldl_append, ha, hb _ rest hrest hne, List.append_assoc]

theorem Spells.append (ha : Spells a s) (hb : Spells b t) (hbegins : Begins b) :
    Spells (a ++ b) (s ++ t) := by
  intro tokens rest hrest hne
  have hne' : b ++ rest ≠ [] := List.append_ne_nil_of_right_ne_nil b hne
  rw [List.append_assoc, ha tokens (b ++ rest) (hbegins.append hrest) hne', hb _ rest hrest hne,
    List.append_assoc]

/-- A closed piece closes what stands before it. -/
theorem Spells.closed (ha : Spells a s) (hb : Closed b t) (hbegins : Begins b) (hne : b ≠ []) :
    Closed (a ++ b) (s ++ t) := by
  intro tokens
  rw [ha tokens b hbegins hne, hb, List.append_assoc]

theorem Spells.flatMap {α : Type*} {xs : List α} {f : α → Bytes} {g : α → List Token}
    (h : ∀ x ∈ xs, Spells (f x) (g x) ∧ Begins (f x)) :
    Spells (xs.flatMap f) (xs.flatMap g) ∧ Begins (xs.flatMap f) := by
  induction xs with
  | nil => exact ⟨closed_nil.spells, fun c hc => by cases hc⟩
  | cons x xs ih =>
    obtain ⟨hx, hbegins⟩ := h x List.mem_cons_self
    obtain ⟨hxs, hbegins'⟩ := ih fun y hy => h y (List.mem_cons_of_mem x hy)
    exact ⟨hx.append hxs hbegins', hbegins.append hbegins'⟩

theorem Closed.flatMap {α : Type*} {xs : List α} {f : α → Bytes} {g : α → List Token}
    (h : ∀ x ∈ xs, Closed (f x) (g x)) : Closed (xs.flatMap f) (xs.flatMap g) := by
  induction xs with
  | nil => exact closed_nil
  | cons x xs ih =>
    exact (h x List.mem_cons_self).append (ih fun y hy => h y (List.mem_cons_of_mem x hy))

/-- Tokens that stand before change nothing. -/
theorem read_append (before tokens : List Token) (reading : Reading) (c : UInt8) :
    read ⟨before ++ tokens, reading⟩ c =
      ⟨before ++ (read ⟨tokens, reading⟩ c).tokens, (read ⟨tokens, reading⟩ c).reading⟩ := by
  have hblank : ∀ tokens, readBlank (before ++ tokens) c =
      ⟨before ++ (readBlank tokens c).tokens, (readBlank tokens c).reading⟩ := by
    intro tokens
    unfold readBlank
    split_ifs <;> simp
  cases reading with
  | blank => exact hblank tokens
  | word seen =>
    unfold read
    dsimp only
    split_ifs
    · rw [List.append_assoc, hblank]
    · rfl
  | str seen =>
    unfold read
    dsimp only
    split_ifs <;> simp
  | escape seen => rfl

/-- A piece is closed when it is so at the beginning of a text. -/
theorem closed_of_start (h : text.foldl read {} = ⟨t, .blank⟩) : Closed text t := by
  have hfold : ∀ (text : Bytes) (before : List Token) (r : Reader),
      text.foldl read ⟨before ++ r.tokens, r.reading⟩ =
        ⟨before ++ (text.foldl read r).tokens, (text.foldl read r).reading⟩ := by
    intro text before r
    induction text generalizing r with
    | nil => rfl
    | cons c text ih => rw [List.foldl_cons, List.foldl_cons, read_append, ih (read r c)]
  intro tokens
  have hstart := hfold text tokens {}
  rw [h, List.append_nil] at hstart
  exact hstart

theorem readBlank_of_not (h : isDelimiter c = false) (tokens : List Token) :
    readBlank tokens c = ⟨tokens, .word [c]⟩ := by
  simp only [isDelimiter, Bool.or_eq_false_iff, decide_eq_false_iff_not] at h
  obtain ⟨⟨⟨⟨h₁, h₂⟩, h₃⟩, h₄⟩, h₅⟩ := h
  rw [readBlank, if_neg h₁, if_neg h₂, if_neg h₃, if_neg (not_or.mpr ⟨h₄, h₅⟩)]

theorem foldl_read_word (h : ∀ c ∈ text, isDelimiter c = false) (tokens : List Token)
    (seen : Bytes) :
    text.foldl read ⟨tokens, .word seen⟩ = ⟨tokens, .word (seen ++ text)⟩ := by
  induction text generalizing seen with
  | nil => rw [List.append_nil]; rfl
  | cons c text ih =>
    have hc : read ⟨tokens, .word seen⟩ c = ⟨tokens, .word (seen ++ [c])⟩ :=
      if_neg (Bool.eq_false_iff.mp (h c List.mem_cons_self))
    rw [List.foldl_cons, hc, ih fun d hd => h d (List.mem_cons_of_mem c hd), List.append_assoc]
    rfl

/-- A word ends where the next piece begins. -/
theorem spells_word (hsome : text ≠ []) (h : ∀ c ∈ text, isDelimiter c = false) :
    Spells text [.word text] := by
  intro tokens rest hrest hne
  obtain ⟨c, text, rfl⟩ := List.exists_cons_of_ne_nil hsome
  obtain ⟨d, rest, rfl⟩ := List.exists_cons_of_ne_nil hne
  have hc : read ⟨tokens, .blank⟩ c = ⟨tokens, .word [c]⟩ :=
    readBlank_of_not (h c List.mem_cons_self) tokens
  have hd : read ⟨tokens, .word (c :: text)⟩ d = readBlank (tokens ++ [.word (c :: text)]) d :=
    if_pos (hrest d rfl)
  have hword : (c :: text).foldl read ⟨tokens, .blank⟩ = ⟨tokens, .word (c :: text)⟩ := by
    rw [List.foldl_cons, hc, foldl_read_word fun d hd => h d (List.mem_cons_of_mem c hd)]
    rfl
  rw [List.foldl_append, hword, List.foldl_cons, hd]
  rfl

theorem foldl_read_str (text : Bytes) (tokens : List Token) (seen : Bytes) :
    (text.flatMap escaped).foldl read ⟨tokens, .str seen⟩ = ⟨tokens, .str (seen ++ text)⟩ := by
  induction text generalizing seen with
  | nil => rw [List.append_nil]; rfl
  | cons c text ih =>
    have hone : (escaped c).foldl read ⟨tokens, .str seen⟩ = ⟨tokens, .str (seen ++ [c])⟩ := by
      unfold escaped
      split_ifs with hc
      · rfl
      · rw [not_or] at hc
        exact (if_neg hc.1).trans (if_neg hc.2)
    rw [List.flatMap_cons, List.foldl_append, hone, ih, List.append_assoc]
    rfl

/-- A quoted text is one token, whatever bytes it holds. -/
theorem closed_quote (text : Bytes) : Closed (quote text) [.str text] := by
  intro tokens
  have hopen : read ⟨tokens, .blank⟩ (ch '"') = ⟨tokens, .str []⟩ := rfl
  rw [quote, List.cons_append, List.foldl_cons, List.foldl_append, hopen, foldl_read_str,
    List.nil_append]
  rfl

/-- The tokens of a closed text. -/
theorem Closed.tokens_eq (h : Closed text t) : tokens text = some t := by
  have hread : text.foldl read {} = ⟨t, .blank⟩ := h []
  rw [tokens, hread]

end Sexp
