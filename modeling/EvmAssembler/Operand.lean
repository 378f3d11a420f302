import EvmAssembler.Datum.Render
import EvmAssembler.Opcode

/-!
# `EvmAssembler.Operand`: what a family instruction is applied to

An instruction of a family is built by applying the family to an opcode. Nothing
checks the opcode's family at that point, nor that it is an opcode at all: the
encoder does. An `Operand` is what stands there until then.
-/

set_option autoImplicit false

namespace EvmAssembler

/-- An opcode, or a loose value in the place of one. -/
inductive Operand where
  | opcode (op : Opcode)
  | loose (value : Datum)
  deriving Repr

namespace Operand

/-- Equality of operands: an opcode equals only itself, loose values compare as parts. -/
def same : Operand → Operand → Bool
  | opcode a, opcode b => a == b
  | loose x, loose y => x.agrees y
  | _, _ => false

/-- The text of an operand in a message: an opcode shows its family, its mnemonic and
its byte in decimal. -/
def shown : Operand → String
  | opcode op =>
    "<" ++ op.family.name ++ "." ++ op.name ++ ": " ++ Text.decimal op.code.toNat ++ ">"
  | loose value => value.shown

/-- Whether the operand's text exists. -/
def isShowable : Operand → Bool
  | opcode _ => true
  | loose value => value.isShowable

/-- The operand's mnemonic. A loose value has none. -/
def mnemonic? : Operand → Option String
  | opcode op => some op.name
  | loose _ => none

end Operand

end EvmAssembler
