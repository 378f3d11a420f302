import EvmAssembler.Assembly.Layout
import EvmAssembler.Source.Segment

/-!
# `EvmAssembler.Assembly`: assembling source units

A program is assembled from source units in order. Each unit's labels belong to a
namespace of its own, named by its module and, where it has one, its package. The first
pass reads each unit whole and then performs its actions; references are settled after
the last unit, so a label may be used before and outside the unit that defines it.
-/

set_option autoImplicit false

namespace EvmAssembler

/-- A source text with the names it goes by. -/
structure SourceUnit where
  module : String
  package : Option String
  text : String
  deriving DecidableEq, Repr

/-- The namespace of a unit's labels. -/
def SourceUnit.space (u : SourceUnit) : String :=
  match u.package with
  | none => u.module
  | some package => package ++ "." ++ u.module

/-- What assembling came to, and the events on the way. -/
structure Assembly where
  events : List Event
  result : Except Error Program

namespace Assembly

/-- Lays out a unit behind what is laid out already. -/
def layOut (l : Layout) (u : SourceUnit) : Layout × Option Error :=
  let l := (l.report (.processing u.space)).enter u.space
  match Source.actions u.text.toList with
  | .ok actions => l.performAll actions
  | .error e => (l, some e)

/-- Lays out units up to the first failure. -/
def layOutAll (l : Layout) : List SourceUnit → Layout × Option Error
  | [] => (l, none)
  | u :: rest =>
    match layOut l u with
    | (next, none) => layOutAll next rest
    | (next, some e) => (next, some e)

/-- Assembles units. -/
def ofUnits (units : List SourceUnit) : Assembly :=
  match layOutAll .empty units with
  | (l, none) => ⟨l.events, l.program⟩
  | (l, some e) => ⟨l.events, .error e⟩

/-- The program that units assemble to. -/
def program (units : List SourceUnit) : Except Error Program :=
  (ofUnits units).result

/-- The program that a lone text assembles to. -/
def programOfText (text : String) (module : String) : Except Error Program :=
  program [⟨module, none, text⟩]

/-- The bytes that units assemble to. -/
def code (units : List SourceUnit) : Except Error (List UInt8) :=
  (program units).bind Program.code

end Assembly

end EvmAssembler
