import EvmAssembler.Immediate

/-!
# `EvmAssembler.Bytecode.Scan`: reading raw bytes as a machine does

A machine knows nothing of instructions and annotations. It reads bytes from the start,
and at a push opcode it skips the immediate. `scan` lists the opcodes reached this way
with their positions and immediates; the jump destinations of bytecode, and its jumps
with a pushed target, are read off that list. The analyses of `Program` answer the same
questions from the instructions.
-/

set_option autoImplicit false

namespace EvmAssembler.Bytecode

/-- An opcode byte the scan reaches, and the immediate bytes it skips after it. -/
structure Step where
  position : Nat
  opcode : UInt8
  immediate : List UInt8
  deriving DecidableEq, Repr

/-- The number of immediate bytes an opcode byte announces. -/
def immediateWidth (opcode : UInt8) : Nat :=
  if 0x60 ≤ opcode ∧ opcode ≤ 0x7F then opcode.toNat - 0x5F else 0

/-- The steps of a scan that starts at the given position. -/
def scanFrom (position : Nat) : List UInt8 → List Step
  | [] => []
  | opcode :: rest =>
    let width := immediateWidth opcode
    ⟨position, opcode, rest.take width⟩ :: scanFrom (position + 1 + width) (rest.drop width)
termination_by bytes => bytes.length
decreasing_by simp only [List.length_drop, List.length_cons]; omega

/-- The steps of a scan from the start. -/
def scan (bytes : List UInt8) : List Step :=
  scanFrom 0 bytes

/-- The positions that hold a jump destination. -/
def jumpDestinations (bytes : List UInt8) : List Nat :=
  ((scan bytes).filter (·.opcode == 0x5B)).map Step.position

/-- Whether the step pushes an immediate. -/
def Step.isPush (s : Step) : Bool :=
  immediateWidth s.opcode ≠ 0

/-- Whether the step jumps. -/
def Step.isJump (s : Step) : Bool :=
  s.opcode == 0x56 || s.opcode == 0x57

/-- The jumps that directly follow a push: their position and the number pushed. -/
def jumpsAmong : List Step → List (Nat × Nat)
  | a :: b :: rest =>
    if a.isPush && b.isJump then
      (b.position, Immediate.toNat a.immediate) :: jumpsAmong (b :: rest)
    else jumpsAmong (b :: rest)
  | _ => []

/-- The jumps of bytecode with a pushed target. -/
def staticJumps (bytes : List UInt8) : List (Nat × Nat) :=
  jumpsAmong (scan bytes)

/-- The jumps of bytecode whose pushed target is no jump destination. -/
def badJumps (bytes : List UInt8) : List (Nat × Nat) :=
  (staticJumps bytes).filter fun jump => !(jumpDestinations bytes).contains jump.2

end EvmAssembler.Bytecode
