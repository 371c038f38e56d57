/-
UAgent/Core/Paths.lean

POSIX paths as `std::filesystem::path` takes them apart: an optional root
directory, the names between separators, and whether a separator ends the
path (which iterates as an empty last element).  On these, the lexical
operations src/core/fs.cc and the permission rules use: `lexically_normal`,
`lexically_relative` and `PathWithin`.

Nothing here looks at the disk; `CanonicalAccessPath`, which does, is a
parameter of the modules that need it.
-/
import UAgent.Base.Bytes

namespace UAgent

open Bytes

/-- A path in its parts. -/
structure Path where
  absolute : Bool
  names : List Bytes
  /-- A separator after the last name. -/
  slash : Bool
deriving DecidableEq

namespace Path

/-- The texts between separators, given the one being read. -/
def splitNames (name : Bytes) : Bytes → List Bytes
  | [] => [name]
  | c :: s => if c = ch '/' then name :: splitNames [] s else splitNames (name ++ [c]) s

/-- The path a text spells. -/
def parse (text : Bytes) : Path :=
  let names := (splitNames [] text).filter (· ≠ [])
  { absolute := text.head? = some (ch '/')
    names := names
    slash := text.getLast? = some (ch '/') && names ≠ [] }

/-- What iterating the path visits. -/
def elements (p : Path) : List Bytes :=
  (if p.absolute then [lit "/"] else []) ++ p.names ++ if p.slash then [[]] else []

/-- `generic_string()`. -/
def text (p : Path) : Bytes :=
  (if p.absolute then lit "/" else []) ++ joinWith (lit "/") p.names ++
    if p.slash then lit "/" else []

/-- One name of `lexically_normal`, on the names kept so far, last first. -/
def normalStep (absolute : Bool) (kept : List Bytes) (name : Bytes) : List Bytes :=
  if name = lit "." then kept
  else if name = lit ".." then
    match kept with
    | [] => if absolute then [] else [name]
    | top :: rest => if top = lit ".." then name :: kept else rest
  else name :: kept

/-- `lexically_normal()`. -/
def lexicallyNormal (p : Path) : Path :=
  let kept := p.names.foldl (normalStep p.absolute) []
  let last := p.names.getLast?
  -- A dot or dot-dot taken off the end leaves the separator before it.
  let ended := p.slash || last = some (lit ".") || last = some (lit "..")
  if !p.absolute && kept = [] && p.names ≠ [] then
    { absolute := false, names := [lit "."], slash := false }
  else
    { absolute := p.absolute
      names := kept.reverse
      slash := ended && kept ≠ [] && kept.head? ≠ some (lit "..") }

/-- The elements left of two lists after their common beginning. -/
def afterCommon : List Bytes → List Bytes → List Bytes × List Bytes
  | a :: as, b :: bs => if a = b then afterCommon as bs else (a :: as, b :: bs)
  | as, bs => (as, bs)

/-- `lexically_relative(base)` as text; empty when there is no such path. -/
def lexicallyRelative (p base : Path) : Bytes :=
  if p.absolute ≠ base.absolute then []
  else
    let (a, b) := afterCommon p.elements base.elements
    if a = [] ∧ b = [] then lit "."
    else
      let up : Int := (b.filter fun e => e ≠ [] ∧ e ≠ lit "." ∧ e ≠ lit "..").length -
        (b.filter (· = lit "..")).length
      if up < 0 then []
      else if up = 0 ∧ (a = [] ∨ a.head? = some []) then lit "."
      else joinWith (lit "/") (List.replicate up.toNat (lit "..") ++ a)

end Path

/-- `PathWithin`. -/
def pathWithin (path root : Bytes) : Bool :=
  (Path.parse root).lexicallyNormal.elements.isPrefixOf
    (Path.parse path).lexicallyNormal.elements

example : pathWithin (lit "/home/me/src/a.cc") (lit "/home/me/x/..") = false := by decide
example : Path.lexicallyRelative (Path.parse (lit "/w/src/a")) (Path.parse (lit "/w")) =
    lit "src/a" := by decide

end UAgent
