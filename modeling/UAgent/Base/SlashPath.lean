/-
UAgent/Base/SlashPath.lean

Absolute paths as texts and as names.  `text` writes the names of a path with
slashes and `names` reads them, whether or not a slash ends the text.  That one
text is another, or goes on from it at a slash, is that the names of the one
begin with those of the other (`within_text`).
-/
import UAgent.Base.Bytes

namespace SlashPath

open Bytes

/-- What a folder's entry may be called. -/
def IsName (name : Bytes) : Prop :=
  name ≠ [] ∧ ch '/' ∉ name ∧ name ≠ lit "." ∧ name ≠ lit ".."

instance (name : Bytes) : Decidable (IsName name) := inferInstanceAs (Decidable (_ ∧ _))

/-- Names, each behind a slash. -/
def slashed (ns : List Bytes) : Bytes := (ns.map fun name => ch '/' :: name).flatten

/-- The text of an absolute path. -/
def text (ns : List Bytes) : Bytes := if ns = [] then [ch '/'] else slashed ns

/-- The names between the slashes, `name` read so far. -/
def namesFrom (name : Bytes) : Bytes → List Bytes
  | [] => if name = [] then [] else [name]
  | c :: s =>
    if c = ch '/' then if name = [] then namesFrom [] s else name :: namesFrom [] s
    else namesFrom (name ++ [c]) s

/-- The names of a path. -/
def names (path : Bytes) : List Bytes := namesFrom [] path

/-- The text of `path` is that of `root`, or goes on from it at a slash. -/
def Within (path root : Bytes) : Prop :=
  ∃ rest, path = root ++ rest ∧
    (rest = [] ∨ root.getLast? = some (ch '/') ∨ rest.head? = some (ch '/'))

variable {ns ms : List Bytes} {name rest tail : Bytes}

/-! ### Names -/

@[simp] theorem slashed_nil : slashed [] = [] := rfl

theorem slashed_cons (name : Bytes) (ns : List Bytes) :
    slashed (name :: ns) = ch '/' :: (name ++ slashed ns) := rfl

theorem slashed_append (ns ms : List Bytes) : slashed (ns ++ ms) = slashed ns ++ slashed ms := by
  rw [slashed, List.map_append, List.flatten_append]
  rfl

theorem text_of_ne_nil (h : ns ≠ []) : text ns = slashed ns := if_neg h

/-- A name is read up to the slash behind it. -/
theorem namesFrom_append (hname : ch '/' ∉ name) (seen rest : Bytes) :
    namesFrom seen (name ++ rest) = namesFrom (seen ++ name) rest := by
  induction name generalizing seen with
  | nil => rw [List.nil_append, List.append_nil]
  | cons c name ih =>
    rw [List.mem_cons, not_or] at hname
    obtain ⟨hc, hname⟩ := hname
    rw [List.cons_append, namesFrom, if_neg fun h => hc h.symm, ih hname, List.append_assoc,
      List.singleton_append]

theorem namesFrom_slashed (h : ∀ n ∈ ns, IsName n) (hname : name ≠ [])
    (htail : tail = [] ∨ tail = [ch '/']) : namesFrom name (slashed ns ++ tail) = name :: ns := by
  induction ns generalizing name with
  | nil =>
    rcases htail with rfl | rfl
    · exact if_neg hname
    · exact (if_pos rfl).trans (if_neg hname)
  | cons n ns ih =>
    obtain ⟨hsome, hslash, -⟩ := h n List.mem_cons_self
    rw [slashed_cons, List.cons_append, List.append_assoc, namesFrom, if_pos rfl, if_neg hname,
      namesFrom_append hslash, List.nil_append,
      ih (fun m hm => h m (List.mem_cons_of_mem n hm)) hsome]

/-- What was written is read. -/
theorem names_text (h : ∀ n ∈ ns, IsName n) (htail : tail = [] ∨ tail = [ch '/']) :
    names (text ns ++ tail) = ns := by
  cases ns with
  | nil => rcases htail with rfl | rfl <;> rfl
  | cons n ns =>
    obtain ⟨hsome, hslash, -⟩ := h n List.mem_cons_self
    rw [text_of_ne_nil (List.cons_ne_nil n ns), slashed_cons, List.cons_append, List.append_assoc,
      names, namesFrom, if_pos rfl, if_pos rfl, namesFrom_append hslash, List.nil_append,
      namesFrom_slashed (fun m hm => h m (List.mem_cons_of_mem n hm)) hsome htail]

/-! ### One path within another -/

/-- A name ends where the slash behind it stands. -/
theorem eq_of_append_slashed {first second : Bytes} {tail tail' : Bytes}
    (hfirst : ch '/' ∉ first) (hsecond : ch '/' ∉ second)
    (htail : tail = [] ∨ tail.head? = some (ch '/'))
    (htail' : tail' = [] ∨ tail'.head? = some (ch '/'))
    (h : first ++ tail = second ++ tail') : first = second ∧ tail = tail' := by
  have hcut : ∀ {name tail : Bytes}, ch '/' ∉ name → (tail = [] ∨ tail.head? = some (ch '/')) →
      untilFirst (ch '/') (name ++ tail) = name := by
    rintro name tail hname (rfl | hhead)
    · rw [List.append_nil, untilFirst_eq_self hname]
    · obtain ⟨tail, rfl⟩ : ∃ t, tail = ch '/' :: t := ⟨_, List.eq_cons_of_mem_head? hhead⟩
      exact untilFirst_append_cons hname tail
  have hname : first = second := by rw [← hcut hfirst htail, h, hcut hsecond htail']
  exact ⟨hname, List.append_cancel_left (hname ▸ h)⟩

theorem head_slashed_append (ns : List Bytes) (h : rest = [] ∨ rest.head? = some (ch '/')) :
    slashed ns ++ rest = [] ∨ (slashed ns ++ rest).head? = some (ch '/') := by
  cases ns with
  | nil => exact h
  | cons n ns => exact .inr rfl

theorem slashed_eq_append_iff (hms : ∀ m ∈ ms, IsName m) (hns : ∀ n ∈ ns, IsName n)
    (htail : tail = [] ∨ tail = [ch '/']) (hrest : rest = [] ∨ rest.head? = some (ch '/')) :
    slashed ns ++ tail = slashed ms ++ rest ↔
      ∃ more, ns = ms ++ more ∧ rest = slashed more ++ tail := by
  have hends : tail = [] ∨ tail.head? = some (ch '/') :=
    htail.imp_right fun h => by rw [h, List.head?_cons]
  induction ms generalizing ns with
  | nil =>
    refine ⟨fun h => ⟨ns, rfl, h.symm⟩, ?_⟩
    rintro ⟨more, rfl, rfl⟩
    rfl
  | cons m ms ih =>
    obtain ⟨hsome, hm, -⟩ := hms m List.mem_cons_self
    cases ns with
    | nil =>
      refine ⟨fun h => ?_, ?_⟩
      · rw [slashed_nil, List.nil_append, slashed_cons, List.cons_append, List.append_assoc] at h
        rcases htail with rfl | rfl
        · cases h
        · exact absurd (List.append_eq_nil_iff.mp (List.cons.inj h).2.symm).1 hsome
      · rintro ⟨more, heq, -⟩
        cases heq
    | cons n ns =>
      obtain ⟨-, hn, -⟩ := hns n List.mem_cons_self
      have hih := ih (fun m' hm' => hms m' (List.mem_cons_of_mem m hm'))
        fun n' hn' => hns n' (List.mem_cons_of_mem n hn')
      rw [slashed_cons, slashed_cons, List.cons_append, List.cons_append, List.append_assoc,
        List.append_assoc, List.cons_inj_right]
      constructor
      · intro h
        obtain ⟨rfl, hrest⟩ := eq_of_append_slashed hn hm (head_slashed_append ns hends)
          (head_slashed_append ms hrest) h
        obtain ⟨more, rfl, rfl⟩ := hih.mp hrest
        exact ⟨more, rfl, rfl⟩
      · rintro ⟨more, heq, rfl⟩
        obtain ⟨rfl, hmore⟩ := List.cons.inj heq
        rw [show ns = ms ++ more from hmore, slashed_append, List.append_assoc]

/-- Names end with no slash. -/
theorem getLast_slashed (h : ∀ n ∈ ns, IsName n) : (slashed ns).getLast? ≠ some (ch '/') := by
  rcases List.eq_nil_or_concat ns with rfl | ⟨ns, last, rfl⟩
  · simp
  · rw [List.concat_eq_append] at h ⊢
    obtain ⟨hsome, hslash, -⟩ := h last (by simp)
    rw [slashed_append, slashed_cons, slashed_nil, List.append_nil]
    intro hlast
    obtain ⟨front, final, rfl⟩ := (List.eq_nil_or_concat last).resolve_left hsome
    rw [List.concat_eq_append, ← List.cons_append, ← List.append_assoc,
      List.getLast?_append_of_ne_nil _ (by simp)] at hlast
    refine hslash ?_
    obtain rfl : final = ch '/' := by simpa using hlast
    simp

/-- One path is within another when its names begin with those of the other. -/
theorem within_text (hms : ∀ m ∈ ms, IsName m) (hns : ∀ n ∈ ns, IsName n)
    (htail : tail = [] ∨ tail = [ch '/']) : Within (text ns ++ tail) (text ms) ↔ ms <+: ns := by
  rcases ms with - | ⟨m, ms⟩
  · refine ⟨fun _ => List.nil_prefix, fun _ => ?_⟩
    rcases ns with - | ⟨n, ns⟩
    · exact ⟨tail, rfl, .inr (.inl rfl)⟩
    · exact ⟨n ++ slashed ns ++ tail, rfl, .inr (.inl rfl)⟩
  rw [text_of_ne_nil (List.cons_ne_nil m ms)]
  obtain ⟨hsome, hm, -⟩ := hms m List.mem_cons_self
  rcases ns with - | ⟨n, ns⟩
  · refine ⟨?_, fun h => absurd (List.prefix_nil.mp h) (List.cons_ne_nil m ms)⟩
    rintro ⟨rest, heq, -⟩
    rw [slashed_cons, List.cons_append, List.append_assoc] at heq
    have heq : tail = m ++ (slashed ms ++ rest) := (List.cons.inj heq).2
    rcases m with - | ⟨c, m⟩
    · exact absurd rfl hsome
    · rcases htail with rfl | rfl
      · cases heq
      · obtain ⟨rfl, -⟩ := List.cons.inj heq
        exact absurd List.mem_cons_self hm
  rw [text_of_ne_nil (List.cons_ne_nil n ns)]
  constructor
  · rintro ⟨rest, heq, hrest⟩
    obtain ⟨more, hmore, -⟩ := (slashed_eq_append_iff hms hns htail
      (hrest.imp_right fun h => h.resolve_left (getLast_slashed hms))).mp heq
    exact ⟨more, hmore.symm⟩
  · rintro ⟨more, hmore⟩
    refine ⟨slashed more ++ tail, ?_, ?_⟩
    · rw [← hmore, slashed_append, List.append_assoc]
    · exact (head_slashed_append more (htail.imp_right fun h => by rw [h, List.head?_cons])).imp_right
        .inr

/-! ### Folders in folders -/

section Order

variable {path folder root : Bytes}

theorem Within.refl (path : Bytes) : Within path path := ⟨[], (List.append_nil path).symm, .inl rfl⟩

theorem Within.isPrefix (h : Within path root) : root <+: path := by
  obtain ⟨rest, rfl, -⟩ := h
  exact List.prefix_append root rest

theorem Within.trans (h : Within path folder) (h' : Within folder root) : Within path root := by
  obtain ⟨rest, rfl, hrest⟩ := h
  obtain ⟨more, rfl, hmore⟩ := h'
  refine ⟨more ++ rest, List.append_assoc root more rest, ?_⟩
  rcases more with - | ⟨c, more⟩
  · rwa [List.append_nil] at hrest
  · exact .inr (hmore.resolve_left (List.cons_ne_nil c more))

/-- A longer beginning of a path is within a shorter one. -/
theorem Within.of_isPrefix (h : Within path root) (hfolder : folder <+: path)
    (hroot : root <+: folder) : Within folder root := by
  obtain ⟨rest, rfl, hrest⟩ := h
  obtain ⟨more, rfl⟩ := hroot
  refine ⟨more, rfl, ?_⟩
  rcases more with - | ⟨c, more⟩
  · exact .inl rfl
  · rw [List.prefix_append_right_inj] at hfolder
    obtain ⟨tail, rfl⟩ := hfolder
    exact .inr (hrest.resolve_left (List.cons_ne_nil c (more ++ tail)))

/-- Of two folders that hold one path, one holds the other. -/
theorem Within.total (h : Within path folder) (h' : Within path root) :
    Within folder root ∨ Within root folder :=
  (List.prefix_or_prefix_of_prefix h'.isPrefix h.isPrefix).imp
    (h'.of_isPrefix h.isPrefix) (h.of_isPrefix h'.isPrefix)

/-- What holds an entry of a folder holds the folder, but for the entry itself
and a folder that is spelled with a slash behind it. -/
theorem Within.of_entry (h : Within (folder ++ ch '/' :: name) root) (hname : ch '/' ∉ name) :
    Within folder root ∨ root = folder ++ [ch '/'] ∨ root = folder ++ ch '/' :: name := by
  have hfolder := List.prefix_append folder (ch '/' :: name)
  rcases List.prefix_or_prefix_of_prefix hfolder h.isPrefix with hshort | hlong
  · obtain ⟨more, rfl⟩ := hshort
    obtain ⟨rest, heq, hrest⟩ := h
    rw [List.append_assoc, List.append_cancel_left_eq] at heq
    rcases more with - | ⟨c, more⟩
    · exact .inl ⟨[], by simp, .inl rfl⟩
    obtain ⟨rfl, rfl⟩ := List.cons.inj heq
    rcases hrest with rfl | hlast | hhead
    · exact .inr (.inr (by simp))
    · rcases List.eq_nil_or_concat more with rfl | ⟨more, last, rfl⟩
      · exact .inr (.inl rfl)
      · rw [List.concat_eq_append, ← List.cons_append, ← List.append_assoc,
          List.getLast?_concat, Option.some_inj] at hlast
        subst hlast
        exact absurd (by simp) hname
    · exact absurd (List.mem_append_right more (List.mem_of_mem_head? hhead)) hname
  · exact .inl (h.of_isPrefix hfolder hlong)

/-- A folder in another comes behind it when paths are sorted. -/
theorem Within.le (h : Within path root) : root ≤ path := by
  obtain ⟨rest, rfl, -⟩ := h
  exact List.le_append_left

end Order

end SlashPath
