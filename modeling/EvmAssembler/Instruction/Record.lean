import EvmAssembler.Instruction

/-!
# `EvmAssembler.Instruction.Record`: instructions as records

A dump describes each instruction by a record: the class of the instruction first, then
its payload. Fields keep their order.
-/

set_option autoImplicit false

namespace EvmAssembler.Instruction

/-- Named fields in order. -/
abbrev Record := List (String × Datum)

/-- The record of an instruction. -/
def record : Instruction → Except Error Record
  | unknown b => .ok [("Class", .text "Unknown"), ("Byte", .int b.toNat)]
  | fixed family operand =>
    match operand.mnemonic? with
    | some name => .ok [("Class", .text family.recordClass), ("Op", .text name)]
    | none => refuse .noSuchFeature
  | dup n => .ok [("Class", .text "Dup"), ("N", n)]
  | swap n => .ok [("Class", .text "Swap"), ("N", n)]
  | push data => .ok [("Class", .text "Push"), ("Data", .text (Text.bytesHex data))]
  | assertion p => .ok [("Class", .text "Annotation"), ("Predicate", .text p.name)]
  | loose _ => refuse .noSuchFeature
  | bare => refuse .noRecord

end EvmAssembler.Instruction
