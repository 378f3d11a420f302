/-!
# `EvmAssembler.Path`: paths in normal form

A path is kept without empty components and without components that are a single dot,
neither of which changes what it names or how it is shown. A double dot stays: what is
above a component is known only to the file system.
-/

set_option autoImplicit false

namespace EvmAssembler

/-- The pieces of a text between slashes. -/
def splitSlashes : List Char → List (List Char)
  | [] => [[]]
  | c :: rest =>
    if c = '/' then [] :: splitSlashes rest
    else
      match splitSlashes rest with
      | [] => [[c]]
      | piece :: pieces => (c :: piece) :: pieces

/-- A path: the slashes it is anchored by, and its components. -/
structure Path where
  anchor : String
  parts : List String
  deriving DecidableEq, Repr

namespace Path

/-- The slashes that anchor a path: none, one, or exactly two. More count as one. -/
def anchorOf : List Char → String
  | '/' :: '/' :: '/' :: _ => "/"
  | '/' :: '/' :: _ => "//"
  | '/' :: _ => "/"
  | _ => ""

/-- The path a text writes. -/
def ofString (text : String) : Path where
  anchor := anchorOf text.toList
  parts := ((splitSlashes text.toList).filter fun p => p ≠ [] ∧ p ≠ ['.']).map String.ofList

/-- The text of a path. A path without anchor and components is a dot. -/
def text (p : Path) : String :=
  if p.anchor = "" ∧ p.parts = [] then "." else p.anchor ++ "/".intercalate p.parts

/-- The path without its last component. -/
def parent (p : Path) : Path :=
  { p with parts := p.parts.dropLast }

/-- The last component. -/
def name (p : Path) : String :=
  p.parts.getLast?.getD ""

/-- A file name up to its last dot, but whole if that dot is its first or last character. -/
def stemOf (name : List Char) : List Char :=
  let extension := (name.reverse.takeWhile (· != '.')).reverse
  let stem := name.take (name.length - extension.length - 1)
  if name.contains '.' && !extension.isEmpty && !stem.isEmpty then stem else name

/-- The last component without its extension. -/
def stem (p : Path) : String :=
  String.ofList (stemOf p.name.toList)

end Path

end EvmAssembler
