/-
UAgent/Core/SandboxPaths.lean

Two tests of whether a path lies in a folder: `SandboxPathWithin` of
src/core/sandbox.cc compares the texts and looks for a slash where the root
ends, `PathWithin` of src/core/fs.cc compares what iterating the two paths
visits.

Both are asked about paths in normal form, which may still end in a slash.  A
root that does is an element longer for the second test and a byte longer for
the first, so neither finds everything below it: `within_iff_names` says for
which pairs the two agree with the names.
-/
import UAgent.Base.SlashPath
import UAgent.Core.Paths

namespace UAgent

open Bytes SlashPath

/-- `SandboxPathWithin` -/
def sandboxPathWithin (path root : Bytes) : Bool :=
  if root = [] ∨ path.length < root.length then false
  else if path.take root.length ≠ root then false
  else if path.length = root.length then true
  else root.getLast? = some (ch '/') || path[root.length]? = some (ch '/')

/-- What the test finds is the root, or goes on from it at a slash. -/
theorem sandboxPathWithin_iff {path root : Bytes} (h : root ≠ []) :
    sandboxPathWithin path root = true ↔ Within path root := by
  rw [sandboxPathWithin]
  constructor
  · intro hwithin
    split_ifs at hwithin with hshort htake hsame
    · exact ⟨[], by rw [← not_not.mp htake, ← hsame, List.take_length, List.append_nil], .inl rfl⟩
    · refine ⟨path.drop root.length, ?_, .inr ?_⟩
      · exact (not_not.mp htake ▸ List.take_append_drop root.length path).symm
      · rw [List.head?_drop]
        simpa using hwithin
  · rintro ⟨rest, rfl, hrest⟩
    rw [if_neg (by simp [h]), if_neg (by simp)]
    split_ifs with hsame
    · rfl
    · rw [List.length_append] at hsame
      have hsome : rest ≠ [] := by
        rintro rfl
        exact hsame rfl
      simpa [List.getElem?_append_right, List.head?_eq_getElem?] using hrest.resolve_left hsome

namespace Path

/-- A path in normal form that starts at the root, as text. -/
def IsNormal (text : Bytes) : Prop :=
  (parse text).absolute = true ∧ (parse text).lexicallyNormal.text = text

instance (text : Bytes) : Decidable (IsNormal text) := inferInstanceAs (Decidable (_ ∧ _))

/-- The names of a path, whether or not a slash ends it. -/
def namesOf (text : Bytes) : List Bytes := (parse text).names

/-! ### The names of a normal path -/

theorem filter_splitNames (name s : Bytes) :
    (splitNames name s).filter (· ≠ []) = namesFrom name s := by
  induction s generalizing name with
  | nil => by_cases h : name = [] <;> simp [splitNames, namesFrom, h]
  | cons c s ih =>
    rw [splitNames, namesFrom]
    by_cases hc : c = ch '/'
    · rw [if_pos hc, if_pos hc]
      by_cases h : name = []
      · rw [if_pos h, List.filter_cons_of_neg (by simp [h]), ih]
      · rw [if_neg h, List.filter_cons_of_pos (by simp [h]), ih]
    · rw [if_neg hc, if_neg hc, ih]

theorem mem_splitNames {name s n : Bytes} (hname : ch '/' ∉ name) (h : n ∈ splitNames name s) :
    ch '/' ∉ n := by
  induction s generalizing name with
  | nil =>
    rw [splitNames, List.mem_singleton] at h
    exact h ▸ hname
  | cons c s ih =>
    rw [splitNames] at h
    split_ifs at h with hc
    · rcases List.mem_cons.mp h with rfl | h
      · exact hname
      · exact ih List.not_mem_nil h
    · refine ih ?_ h
      rw [List.mem_append, List.mem_singleton, not_or]
      exact ⟨hname, fun heq => hc heq.symm⟩

/-- What `normalStep` keeps of an absolute path are names. -/
theorem isName_normalStep {kept : List Bytes} {name : Bytes} (hkept : ∀ n ∈ kept, IsName n)
    (hsome : name ≠ []) (hslash : ch '/' ∉ name) :
    ∀ n ∈ normalStep true kept name, IsName n := by
  unfold normalStep
  by_cases hdot : name = lit "."
  · rwa [if_pos hdot]
  rw [if_neg hdot]
  by_cases hdots : name = lit ".."
  · rw [if_pos hdots]
    rcases kept with - | ⟨top, rest⟩
    · exact fun n hn => absurd hn List.not_mem_nil
    · have htop := hkept top List.mem_cons_self
      dsimp only
      rw [if_neg htop.2.2.2]
      exact fun n hn => hkept n (List.mem_cons_of_mem top hn)
  · rw [if_neg hdots]
    intro n hn
    rcases List.mem_cons.mp hn with rfl | hn
    · exact ⟨hsome, hslash, hdot, hdots⟩
    · exact hkept n hn

theorem isName_foldl {names kept : List Bytes} (hkept : ∀ n ∈ kept, IsName n)
    (hnames : ∀ n ∈ names, n ≠ [] ∧ ch '/' ∉ n) :
    ∀ n ∈ names.foldl (normalStep true) kept, IsName n := by
  induction names generalizing kept with
  | nil => exact hkept
  | cons name names ih =>
    obtain ⟨hsome, hslash⟩ := hnames name List.mem_cons_self
    exact ih (isName_normalStep hkept hsome hslash)
      fun n hn => hnames n (List.mem_cons_of_mem name hn)

theorem isName_lexicallyNormal {text : Bytes} (h : (parse text).absolute = true) :
    ∀ n ∈ (parse text).lexicallyNormal.names, IsName n := by
  have hnames : ∀ n ∈ (parse text).names, n ≠ [] ∧ ch '/' ∉ n := by
    intro n hn
    obtain ⟨hn, hsome⟩ := List.mem_filter.mp hn
    exact ⟨of_decide_eq_true hsome, mem_splitNames List.not_mem_nil hn⟩
  intro n hn
  rw [lexicallyNormal, if_neg (by simp [h]), h] at hn
  exact isName_foldl (fun n hn => absurd hn List.not_mem_nil) hnames n (List.mem_reverse.mp hn)

theorem slash_lexicallyNormal {p : Path} (h : p.absolute = true)
    (hslash : p.lexicallyNormal.slash = true) : p.lexicallyNormal.names ≠ [] := by
  rw [lexicallyNormal, if_neg (by simp [h])] at hslash ⊢
  intro hnil
  rw [List.reverse_eq_nil_iff] at hnil
  simp [hnil] at hslash

/-- What may end a text. -/
theorem ending_cases (slash : Bool) :
    (if slash then [ch '/'] else []) = [] ∨ (if slash then [ch '/'] else []) = [ch '/'] := by
  cases slash
  · exact .inl rfl
  · exact .inr rfl

/-- The text of a path, by the slash that ends it. -/
theorem text_absolute (ns : List Bytes) (slash : Bool) :
    text ⟨true, ns, slash⟩ = SlashPath.text ns ++ if slash then [ch '/'] else [] := by
  have hslash : lit "/" = [ch '/'] := by decide
  cases ns with
  | nil => simp [text, SlashPath.text, hslash]
  | cons n ns => simp [text, SlashPath.text, slashed, joinWith, hslash, List.flatMap_def]

theorem parse_text {ns : List Bytes} {slash : Bool} (h : ∀ n ∈ ns, IsName n)
    (hslash : slash = true → ns ≠ []) : parse (text ⟨true, ns, slash⟩) = ⟨true, ns, slash⟩ := by
  have hnames := names_text h (ending_cases slash)
  rw [SlashPath.names, ← filter_splitNames] at hnames
  rw [text_absolute, parse, hnames, Path.mk.injEq]
  refine ⟨?_, rfl, ?_⟩
  · cases ns with
    | nil => rfl
    | cons n ns => rfl
  · cases slash with
    | true => simp [hslash rfl]
    | false =>
      cases ns with
      | nil => rfl
      | cons n ns =>
        have hlast := getLast_slashed h
        simpa [text_of_ne_nil] using hlast

/-- A normal path is written of names, and is what its text is parsed to. -/
theorem IsNormal.spelling {path : Bytes} (h : IsNormal path) :
    ∃ ns slash, (∀ n ∈ ns, IsName n) ∧ parse path = ⟨true, ns, slash⟩ ∧
      (parse path).lexicallyNormal = ⟨true, ns, slash⟩ ∧
        path = SlashPath.text ns ++ if slash then [ch '/'] else [] := by
  obtain ⟨habsolute, htext⟩ := h
  have hnames := isName_lexicallyNormal habsolute
  have hslash := slash_lexicallyNormal habsolute
  have hroot : (parse path).lexicallyNormal.absolute = true := by
    rw [lexicallyNormal, if_neg (by simp [habsolute])]
    exact habsolute
  rcases hnormal : (parse path).lexicallyNormal with ⟨absolute, ns, slash⟩
  rw [hnormal] at hnames hslash hroot htext
  obtain rfl : absolute = true := hroot
  have hparse : parse path = ⟨true, ns, slash⟩ := by rw [← htext, parse_text hnames hslash]
  exact ⟨ns, slash, hnames, hparse, rfl, by rw [← htext, text_absolute]⟩

theorem elements_absolute (ns : List Bytes) (slash : Bool) :
    elements ⟨true, ns, slash⟩ = lit "/" :: (ns ++ if slash then [[]] else []) := by
  simp [elements]

end Path

open Path

/-! ### What each test finds -/

variable {path root : Bytes} {ns ms : List Bytes} {slash slash' : Bool}

/-- An element more than the names is a name of neither. -/
theorem elements_prefix (hns : ∀ n ∈ ns, IsName n) (hms : ∀ m ∈ ms, IsName m) :
    (elements ⟨true, ms, slash'⟩).isPrefixOf (elements ⟨true, ns, slash⟩) = true ↔
      if slash' then ms = ns ∧ slash = true else ms <+: ns := by
  have hnot {l : List Bytes} (h : ∀ n ∈ l, IsName n) : [] ∉ l := fun hmem => (h [] hmem).1 rfl
  have hlonger : ¬ms ++ [[]] <+: ns := fun h => hnot hns (h.subset (by simp))
  rw [List.isPrefixOf_iff_prefix, elements_absolute, elements_absolute, List.cons_prefix_cons]
  simp only [true_and]
  cases slash' with
  | true =>
    cases slash with
    | true => simp [List.prefix_concat_iff, hlonger]
    | false => simp [hlonger]
  | false =>
    cases slash with
    | true =>
      have hne : ms ≠ ns ++ [[]] := by
        rintro rfl
        exact hnot hms (by simp)
      simp [List.prefix_concat_iff, hne]
    | false => simp

theorem pathWithin_iff (hpath : IsNormal path) (hroot : IsNormal root) :
    pathWithin path root = true ↔
      if (parse root).slash then namesOf root = namesOf path ∧ (parse path).slash = true
      else namesOf root <+: namesOf path := by
  obtain ⟨ns, slash, hns, hparse, hnormal, -⟩ := hpath.spelling
  obtain ⟨ms, slash', hms, hparse', hnormal', -⟩ := hroot.spelling
  rw [pathWithin, hnormal, hnormal', namesOf, namesOf, hparse, hparse']
  exact elements_prefix hns hms

/-- The texts find nothing that is not below the root, and all that is when no
slash ends the root. -/
theorem names_of_sandboxPathWithin (hpath : IsNormal path) (hroot : IsNormal root)
    (h : sandboxPathWithin path root = true) : namesOf root <+: namesOf path := by
  obtain ⟨ns, slash, hns, hparse, -, rfl⟩ := hpath.spelling
  obtain ⟨ms, slash', hms, hparse', -, rfl⟩ := hroot.spelling
  rw [namesOf, namesOf, hparse, hparse']
  have hsome : SlashPath.text ms ++ (if slash' then [ch '/'] else []) ≠ [] := by
    cases ms <;> simp [SlashPath.text, slashed_cons]
  obtain ⟨rest, heq, hrest⟩ := (sandboxPathWithin_iff hsome).mp h
  refine (within_text hms hns (ending_cases slash)).mp ?_
  cases slash' with
  | false => exact ⟨rest, by simpa using heq, by simpa using hrest⟩
  | true => exact ⟨ch '/' :: rest, by simpa using heq, .inr (.inr rfl)⟩

theorem sandboxPathWithin_of_names (hpath : IsNormal path) (hroot : IsNormal root)
    (hslash : (parse root).slash = false) (h : namesOf root <+: namesOf path) :
    sandboxPathWithin path root = true := by
  obtain ⟨ns, slash, hns, hparse, -, rfl⟩ := hpath.spelling
  obtain ⟨ms, slash', hms, hparse', -, rfl⟩ := hroot.spelling
  rw [namesOf, namesOf, hparse, hparse'] at h
  rw [hparse'] at hslash
  obtain rfl : slash' = false := hslash
  rw [if_neg Bool.false_ne_true, List.append_nil]
  refine (sandboxPathWithin_iff ?_).mpr ((within_text hms hns (ending_cases slash)).mpr h)
  cases ms <;> simp [SlashPath.text, slashed_cons]

/-- The two tests answer as the names do exactly when no slash ends the root,
or the path is the root, or lies outside it. -/
theorem within_iff_names (hpath : IsNormal path) (hroot : IsNormal root) :
    ((sandboxPathWithin path root = true ↔ namesOf root <+: namesOf path) ∧
        pathWithin path root = sandboxPathWithin path root) ↔
      (parse root).slash = false ∨ path = root ∨ ¬namesOf root <+: namesOf path := by
  have hpaths := pathWithin_iff hpath hroot
  constructor
  · rintro ⟨hnames, hsame⟩
    by_contra hnot
    rw [not_or, not_or, not_not, Bool.not_eq_false] at hnot
    obtain ⟨hslash, hne, hbelow⟩ := hnot
    rw [hsame, if_pos hslash] at hpaths
    obtain ⟨heq, hpathslash⟩ := hpaths.mp (hnames.mpr hbelow)
    obtain ⟨ns, slash, -, hparse, -, htext⟩ := hpath.spelling
    obtain ⟨ms, slash', -, hparse', -, htext'⟩ := hroot.spelling
    rw [namesOf, namesOf, hparse, hparse'] at heq
    rw [hparse] at hpathslash
    rw [hparse'] at hslash
    obtain rfl : ms = ns := heq
    obtain rfl : slash = true := hpathslash
    obtain rfl : slash' = true := hslash
    exact hne (htext.trans htext'.symm)
  · intro hwhen
    have hsound := names_of_sandboxPathWithin hpath hroot
    rcases hwhen with hslash | rfl | hout
    · rw [if_neg (by simp [hslash])] at hpaths
      have htexts := sandboxPathWithin_of_names hpath hroot hslash
      exact ⟨⟨hsound, htexts⟩, Bool.eq_iff_iff.mpr (hpaths.trans ⟨htexts, hsound⟩)⟩
    · have hself : sandboxPathWithin path path = true := by
        obtain ⟨ns, slash, -, -, -, htext⟩ := hpath.spelling
        have hsome : path ≠ [] := by
          rw [htext]
          cases ns <;> simp [SlashPath.text, slashed_cons]
        exact (sandboxPathWithin_iff hsome).mpr ⟨[], by simp, .inl rfl⟩
      refine ⟨⟨hsound, fun _ => hself⟩, ?_⟩
      rw [hself, hpaths]
      split_ifs with hslash
      · exact ⟨rfl, hslash⟩
      · exact List.prefix_refl _
    · refine ⟨⟨hsound, fun h => absurd h hout⟩, ?_⟩
      rw [Bool.not_eq_true _ |>.mp (mt hsound hout), ← Bool.not_eq_true, hpaths]
      split_ifs with hslash
      · exact fun h => hout (h.1 ▸ List.prefix_refl _)
      · exact hout

theorem within_iff_names_dev :
    (sandboxPathWithin (lit "/dev/null") (lit "/dev") = true ↔
        namesOf (lit "/dev") <+: namesOf (lit "/dev/null")) ∧
      pathWithin (lit "/dev/null") (lit "/dev") = sandboxPathWithin (lit "/dev/null") (lit "/dev") :=
  (within_iff_names (by decide) (by decide)).mpr (.inl (by decide))

/-- A root that ends in a slash: neither test finds its own folder, and only
the texts find what is in it. -/
theorem dev_slash_missed :
    (IsNormal (lit "/dev") ∧ IsNormal (lit "/dev/null") ∧ IsNormal (lit "/dev/")) ∧
      (namesOf (lit "/dev/") <+: namesOf (lit "/dev") ∧
        sandboxPathWithin (lit "/dev") (lit "/dev/") = false) ∧
        sandboxPathWithin (lit "/dev/null") (lit "/dev/") = true ∧
          pathWithin (lit "/dev/null") (lit "/dev/") = false := by
  decide

end UAgent
