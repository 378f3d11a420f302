import EvmAssembler.Error
import EvmAssembler.Text.Case

/-!
# `EvmAssembler.Opcode.Lookup`: opcodes by mnemonic

A mnemonic is looked up after capitalising it, so `jumpdest` and `JumpDest` name
the same opcode.
-/

set_option autoImplicit false

namespace EvmAssembler.Opcode

/-- The opcode whose mnemonic the text spells in any case. -/
def ofName? (name : String) : Option Opcode :=
  let written := Text.capitals name.toList
  all.find? fun op => op.name.toList == written

/-- The opcode a mnemonic names. -/
def ofName (name : String) : Except Error Opcode :=
  match ofName? name with
  | some op => .ok op
  | none => refuse (.unknownMnemonic name)

end EvmAssembler.Opcode
