/-
UAgent/Base/Lines.lean

Files of lines: the text that holds a list of lines, each closed by a newline,
and what `std::getline` reads back from it.  A line that holds no newline is
read as it was written (`fileLines_unlines`); the text of a JSON value is such
a line (`Json.oneLine_dump`), since a string's control characters are escaped.
-/
import UAgent.Base.JsonText

namespace Bytes

/-- The lines, each closed by a newline. -/
def unlines (lines : List Bytes) : Bytes := lines.flatMap fun line => line ++ [0x0a]

@[simp] theorem unlines_nil : unlines [] = [] := rfl

@[simp] theorem unlines_cons (line : Bytes) (lines : List Bytes) :
    unlines (line :: lines) = line ++ 0x0a :: unlines lines := by
  simp [unlines]

@[simp] theorem unlines_append (a b : List Bytes) : unlines (a ++ b) = unlines a ++ unlines b :=
  List.flatMap_append

/-- The lines `std::getline` reads, `line` being read: the last one may lack
its newline. -/
def linesFrom (line : Bytes) : Bytes → List Bytes
  | [] => if line = [] then [] else [line]
  | c :: s => if c = 0x0a then line :: linesFrom [] s else linesFrom (line ++ [c]) s

/-- The lines of a file. -/
def fileLines (file : Bytes) : List Bytes := linesFrom [] file

/-- A text that is one line. -/
def OneLine (s : Bytes) : Prop := 0x0a ∉ s

instance (s : Bytes) : Decidable (OneLine s) := by unfold OneLine; infer_instance

theorem linesFrom_append {s : Bytes} (h : OneLine s) (line t : Bytes) :
    linesFrom line (s ++ 0x0a :: t) = (line ++ s) :: linesFrom [] t := by
  induction s generalizing line with
  | nil => simp [linesFrom]
  | cons c s ih =>
    rw [OneLine, List.mem_cons, not_or] at h
    rw [List.cons_append, linesFrom, if_neg (Ne.symm h.1), ih h.2]
    simp

/-- The last line needs no newline. -/
theorem linesFrom_last {s : Bytes} (h : OneLine s) (line : Bytes) :
    linesFrom line s = if line ++ s = [] then [] else [line ++ s] := by
  induction s generalizing line with
  | nil => rw [linesFrom, List.append_nil]
  | cons c s ih =>
    rw [OneLine, List.mem_cons, not_or] at h
    rw [linesFrom, if_neg (Ne.symm h.1), ih h.2, List.append_assoc, List.singleton_append]

/-- Lines joined by newlines are read. -/
theorem fileLines_joined (first : Bytes) (lines : List Bytes) (h : ∀ line ∈ first :: lines, OneLine line)
    (hne : ∀ line ∈ first :: lines, line ≠ []) :
    fileLines (first ++ lines.flatMap fun line => 0x0a :: line) = first :: lines := by
  induction lines generalizing first with
  | nil =>
    rw [List.flatMap_nil, List.append_nil, fileLines, linesFrom_last (h first List.mem_cons_self),
      List.nil_append, if_neg (hne first List.mem_cons_self)]
  | cons next lines ih =>
    rw [List.flatMap_cons, List.cons_append, fileLines,
      linesFrom_append (h first List.mem_cons_self), List.nil_append]
    exact congrArg (first :: ·) (ih next (fun line hline => h line (List.mem_cons_of_mem _ hline))
      fun line hline => hne line (List.mem_cons_of_mem _ hline))

/-- The first line, and the lines behind it. -/
theorem fileLines_eq_cons {file : Bytes} (h : file ≠ []) :
    fileLines file = untilFirst 0x0a file ::
      fileLines (file.drop ((untilFirst 0x0a file).length + 1)) := by
  by_cases hmem : (0x0a : UInt8) ∈ file
  · obtain ⟨line, rest, rfl, hline⟩ := List.eq_append_cons_of_mem hmem
    rw [untilFirst_append_cons hline, List.append_cons, List.drop_left' (by simp),
      ← List.append_cons, fileLines, linesFrom_append hline, List.nil_append, fileLines]
  · rw [untilFirst_eq_self hmem, List.drop_eq_nil_of_le (Nat.le_succ _), fileLines,
      linesFrom_last hmem, List.nil_append, if_neg h]
    rfl

theorem oneLine_of_mem_linesFrom {line s : Bytes} (hline : OneLine line) :
    ∀ read ∈ linesFrom line s, OneLine read := by
  induction s generalizing line with
  | nil =>
    intro read h
    rw [linesFrom] at h
    split_ifs at h
    · exact absurd h List.not_mem_nil
    · exact List.mem_singleton.mp h ▸ hline
  | cons c s ih =>
    intro read h
    rw [linesFrom] at h
    split_ifs at h with hc
    · rcases List.mem_cons.mp h with rfl | h
      · exact hline
      · exact ih List.not_mem_nil read h
    · refine ih (fun hmem => ?_) read h
      rcases List.mem_append.mp hmem with hmem | hmem
      · exact hline hmem
      · exact hc (List.mem_singleton.mp hmem).symm

/-- A line that was read holds no newline. -/
theorem oneLine_of_mem_fileLines {file read : Bytes} (h : read ∈ fileLines file) : OneLine read :=
  oneLine_of_mem_linesFrom List.not_mem_nil read h

/-- Lines are read as they were written. -/
theorem fileLines_unlines {lines : List Bytes} (h : ∀ line ∈ lines, OneLine line) :
    fileLines (unlines lines) = lines := by
  induction lines with
  | nil => rfl
  | cons line lines ih =>
    rw [fileLines, unlines_cons, linesFrom_append (h line List.mem_cons_self), List.nil_append]
    exact congrArg (line :: ·) (ih fun other hother => h other (List.mem_cons_of_mem _ hother))

end Bytes

/-! ### JSON on one line -/

/-- A number is written on one line. -/
class LineDoubles [DoubleText] : Prop where
  oneLine : ∀ x : Double, Bytes.OneLine (DoubleText.toChars x)

namespace Json

open Bytes

theorem oneLine_append {a b : Bytes} (ha : OneLine a) (hb : OneLine b) : OneLine (a ++ b) :=
  fun h => (List.mem_append.mp h).elim ha hb

theorem oneLine_replacement : OneLine replacement := by decide

theorem oneLine_escapeChar : ∀ c, OneLine (escapeChar c) :=
  forall_byte (P := fun c => OneLine (escapeChar c)) (by decide)

theorem oneLine_quote (s : Bytes) : OneLine (quote s) := by
  have hraw : ∀ c : UInt8, 0x80 ≤ c → OneLine [c] := by
    rintro c hc h
    obtain rfl := List.mem_singleton.mp h
    exact absurd hc (by decide)
  have hinside : OneLine (escape s) :=
    escapeFrom_induction List.not_mem_nil (fun _ _ => oneLine_append) oneLine_escapeChar
      oneLine_replacement hraw s .accept [] List.not_mem_nil (by simp)
  have hquote : OneLine [ch '"'] := by decide
  exact oneLine_append hquote (oneLine_append hinside hquote)

theorem oneLine_decimal (n : Nat) : OneLine (decimal n) := fun h => by
  have hdigit := (digit_of_mem_decimal h).1
  revert hdigit
  decide

theorem oneLine_bitsText : @LineDoubles bitsText :=
  let _ := bitsText
  ⟨fun x => oneLine_append (oneLine_decimal x.bits.toNat) (by decide)⟩

theorem oneLine_decimalInt (n : Int) : OneLine (decimalInt n) := by
  rw [decimalInt]
  split_ifs
  · have hsign : OneLine [ch '-'] := by decide
    exact oneLine_append hsign (oneLine_decimal _)
  · exact oneLine_decimal _

theorem oneLine_joinWith {sep : Bytes} (hsep : OneLine sep) {texts : List Bytes}
    (h : ∀ text ∈ texts, OneLine text) : OneLine (joinWith sep texts) := by
  cases texts with
  | nil => exact List.not_mem_nil
  | cons text texts =>
    refine oneLine_append (h text List.mem_cons_self) fun hmem => ?_
    obtain ⟨other, hother, hin⟩ := List.mem_flatMap.mp hmem
    exact oneLine_append hsep (h other (List.mem_cons_of_mem _ hother)) hin

theorem oneLine_null : OneLine (lit "null") := by decide
theorem oneLine_true : OneLine (lit "true") := by decide
theorem oneLine_false : OneLine (lit "false") := by decide

section Dump

variable [DoubleText]

mutual

/-- The text of a value is one line. -/
theorem oneLine_dump [LineDoubles] : (j : Json) → OneLine (dump j)
  | .null => oneLine_null
  | .bool true => oneLine_true
  | .bool false => oneLine_false
  | .int n => oneLine_decimalInt n.toInt
  | .uint n => oneLine_decimal n.toNat
  | .float x => by
    rw [dump]
    split_ifs
    · exact LineDoubles.oneLine x
    · exact oneLine_null
  | .str s => oneLine_quote s
  | .arr items => by
    have hopen : OneLine [ch '['] := by decide
    have hclose : OneLine [ch ']'] := by decide
    have hcomma : OneLine [ch ','] := by decide
    rw [dump]
    exact oneLine_append hopen
      (oneLine_append (oneLine_joinWith hcomma (oneLine_dumpItems items)) hclose)
  | .obj fields => by
    have hopen : OneLine [ch '{'] := by decide
    have hclose : OneLine [ch '}'] := by decide
    have hcomma : OneLine [ch ','] := by decide
    rw [dump]
    exact oneLine_append hopen
      (oneLine_append (oneLine_joinWith hcomma (oneLine_dumpFields fields)) hclose)

theorem oneLine_dumpItems [LineDoubles] : (items : List Json) → ∀ text ∈ dumpItems items, OneLine text
  | [] => by simp [dumpItems]
  | j :: items => by
    intro text h
    rw [dumpItems, List.mem_cons] at h
    rcases h with rfl | h
    · exact oneLine_dump j
    · exact oneLine_dumpItems items text h

theorem oneLine_dumpFields [LineDoubles] :
    (fields : List (Bytes × Json)) → ∀ text ∈ dumpFields fields, OneLine text
  | [] => by simp [dumpFields]
  | (k, v) :: fields => by
    intro text h
    rw [dumpFields, List.mem_cons] at h
    rcases h with rfl | h
    · have hcolon : OneLine [ch ':'] := by decide
      exact oneLine_append (oneLine_quote k) (oneLine_append hcolon (oneLine_dump v))
    · exact oneLine_dumpFields fields text h

end

end Dump

end Json
