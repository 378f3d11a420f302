import EvmAssembler.Instruction
import EvmAssembler.Instruction.Codes

/-!
# `EvmAssembler.Instruction.Encode`: instructions as bytes

`encode` is the one place that says which bytes an instruction becomes, and `size` is
the length of that and nothing else. Offsets, listings and jump checks all measure by
it, so no second rule can disagree about a width.
-/

set_option autoImplicit false

namespace EvmAssembler.Instruction

/-- The bytes of an instruction. -/
def encode : Instruction → Except Error (List UInt8)
  | assertion _ => .ok []
  | unknown b => .ok [b]
  | push data => (pushCode (.int data.length)).map (· :: data)
  | dup n => (dupCode n).map ([·])
  | swap n => (swapCode n).map ([·])
  | fixed family operand => (family.code operand).map ([·])
  | loose datum => refuse (.notInstruction (some datum))
  | bare => refuse (.notInstruction none)

/-- The number of bytes of an instruction. -/
def size (i : Instruction) : Except Error Nat :=
  i.encode.map List.length

/-- An annotation takes no bytes. -/
@[simp] theorem encode_assertion (p : Predicate) : (assertion p).encode = .ok [] := rfl

/-- An unknown byte stands for itself. -/
@[simp] theorem encode_unknown (b : UInt8) : (unknown b).encode = .ok [b] := rfl

/-- A fixed opcode always encodes, as its one byte. -/
@[simp] theorem encode_ofOpcode (op : Opcode) : (ofOpcode op).encode = .ok [op.code] := by
  simp [ofOpcode, encode, Family.code, Except.map]

/-- What can be encoded has a size, the number of its bytes. -/
theorem size_eq_ok_of_encode {i : Instruction} {bytes : List UInt8}
    (h : i.encode = .ok bytes) : i.size = .ok bytes.length := by
  simp [size, h, Except.map]

/-- What cannot be encoded has no size, for the same reason. -/
theorem size_eq_error_of_encode {i : Instruction} {e : Error}
    (h : i.encode = .error e) : i.size = .error e := by
  simp [size, h, Except.map]

end EvmAssembler.Instruction
