import EvmAssembler.Instruction.Encode

/-!
# `EvmAssembler.Program`: programs and their bytes

A program is a list of instructions. Its bytes, its size and its listing all go through
the instructions in order and fail with the first that cannot be encoded.
-/

set_option autoImplicit false

namespace EvmAssembler

/-- A sequence of instructions. -/
abbrev Program := List Instruction

namespace Program

/-- The bytes of the program. -/
def code : Program → Except Error (List UInt8)
  | [] => .ok []
  | i :: rest => i.encode.bind fun bytes => (code rest).map (bytes ++ ·)

/-- The number of bytes of the program. -/
def size : Program → Except Error Nat
  | [] => .ok 0
  | i :: rest => i.size.bind fun n => (size rest).map (n + ·)

/-- Every instruction with its offset, the first at the given one. -/
def listingFrom (offset : Nat) : Program → Except Error (List (Nat × Instruction))
  | [] => .ok []
  | i :: rest => i.size.bind fun n => (listingFrom (offset + n) rest).map ((offset, i) :: ·)

/-- Every instruction with its offset. -/
def listing (p : Program) : Except Error (List (Nat × Instruction)) :=
  listingFrom 0 p

end Program

end EvmAssembler
