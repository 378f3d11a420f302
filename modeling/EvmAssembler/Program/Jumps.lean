import EvmAssembler.Immediate
import EvmAssembler.Program.Navigation

/-!
# `EvmAssembler.Program.Jumps`: jumps with a known target

A jump's target is known when the instruction right before it pushes it, annotations
aside. Such a jump is bad when no jump destination stands at its target.
-/

set_option autoImplicit false

namespace EvmAssembler

/-- Whether the instruction jumps. -/
def Instruction.isJump : Instruction → Bool
  | .fixed .pc (.opcode .JUMP) => true
  | .fixed .pc (.opcode .JUMPI) => true
  | _ => false

/-- The number a push pushes. -/
def Instruction.pushed? : Instruction → Option Nat
  | .push data => some (Immediate.toNat data)
  | _ => none

namespace Program

/-- The jumps among listed instructions with their targets, given what the instruction
before them pushed. -/
def jumpsAfter (pushed : Option Nat) : List (Nat × Instruction) → List (Nat × Nat)
  | [] => []
  | (offset, i) :: rest =>
    if i.isAssertion then jumpsAfter pushed rest
    else
      -- What an earlier push left is forgotten here, whatever the instruction is.
      let later := jumpsAfter i.pushed? rest
      match pushed with
      | some target => if i.isJump then (offset, target) :: later else later
      | none => later

/-- Every jump whose target is pushed right before it: its offset and the target. -/
def staticJumps (p : Program) : Except Error (List (Nat × Nat)) :=
  p.listing.map (jumpsAfter none)

/-- Keeps the jumps whose target is no jump destination. -/
def keepBad (p : Program) : List (Nat × Nat) → Except Error (List (Nat × Nat))
  | [] => .ok []
  | (offset, target) :: rest => (p.isJumpdest target).bind fun good =>
    (keepBad p rest).map fun bad => if good then bad else (offset, target) :: bad

/-- The static jumps to something other than a jump destination. -/
def badJumps (p : Program) : Except Error (List (Nat × Nat)) :=
  p.staticJumps.bind (keepBad p)

end Program

end EvmAssembler
