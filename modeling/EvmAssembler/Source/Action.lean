import EvmAssembler.Opcode

/-!
# `EvmAssembler.Source.Action`: what source text asks for

Reading a source text gives a list of actions, in order: instructions to issue, labels to
define, and lines to reject. Literals stay as they are written. What they are worth, and
whether they fit, is decided when the action is performed.
-/

set_option autoImplicit false

namespace EvmAssembler.Source

/-- The words of a reference to a label: its name, or a namespace and its name there. -/
abbrev LabelPath := List String

/-- What a push is given. -/
inductive PushOperand where
  /-- An integer literal as written. -/
  | literal (text : String)
  /-- A reference to a label, whose offset is to be pushed. -/
  | reference (path : LabelPath)
  deriving DecidableEq, Repr

/-- What a piece of source text asks for. -/
inductive Action where
  | opcode (op : Opcode)
  | dup (n : Nat)
  | swap (n : Nat)
  /-- A push, with its keyword as written: digits in it fix the width. -/
  | push (keyword : String) (operand : PushOperand)
  /-- A byte that stands for itself, by its literal. -/
  | byte (literal : String)
  | label (name : String)
  /-- A line that no command matches. -/
  | unknown (text : String)
  deriving DecidableEq, Repr

end EvmAssembler.Source
