import EvmAssembler.Error

/-!
# `EvmAssembler.Instruction.Codes`: opcode bytes and their domains

The byte of a `DUP`, `SWAP` or `PUSH` opcode is a base plus the index or the number
of immediate bytes (`rangeCode`), and a family opcode has its own byte. Each function
here checks its argument, which arrives unchecked, and refuses what lies outside its
domain. A truth value is no index, although it counts as a number elsewhere.
-/

set_option autoImplicit false

namespace EvmAssembler

/-- `PUSH` of `n` bytes is `pushBase + n`. -/
def pushBase : UInt8 := 0x5F

/-- `DUP` of depth `n` is `dupBase + n`. -/
def dupBase : UInt8 := 0x7F

/-- `SWAP` of depth `n` is `swapBase + n`. -/
def swapBase : UInt8 := 0x8F

/-- The most immediate bytes a push can carry; it carries one at least. -/
def maxPushBytes : Nat := 32

/-- The deepest stack item `DUP` and `SWAP` can reach; the shallowest is 1. -/
def maxStackIndex : Nat := 16

/-- The value of a datum that is an integer from 1 to `limit`. -/
def indexWithin? (limit : Nat) (n : Datum) : Option Nat :=
  match n.int? with
  | some i => if 1 ≤ i ∧ i ≤ limit then some i.toNat else none
  | none => none

/-- The opcode byte of an index, counted from the base of a range. What is no integer within the
limit is refused with the fault of the range. -/
def rangeCode (base : UInt8) (limit : Nat) (fault : Datum → Error) (n : Datum) :
    Except Error UInt8 :=
  match indexWithin? limit n with
  | some i => .ok (base + UInt8.ofNat i)
  | none => refuse (fault n)

/-- The opcode byte of `DUP` with the given depth. -/
def dupCode (n : Datum) : Except Error UInt8 :=
  rangeCode dupBase maxStackIndex .stackIndex n

/-- The opcode byte of `SWAP` with the given depth. -/
def swapCode (n : Datum) : Except Error UInt8 :=
  rangeCode swapBase maxStackIndex .stackIndex n

/-- The opcode byte of a push of `length` immediate bytes. -/
def pushCode (length : Datum) : Except Error UInt8 :=
  rangeCode pushBase maxPushBytes .pushLength length

/-- The byte of an opcode of the family; any other operand is refused. -/
def Family.code (f : Family) : Operand → Except Error UInt8
  | .opcode op => if op.family = f then .ok op.code else refuse (.notInFamily (.opcode op) f)
  | .loose value => refuse (.notInFamily (.loose value) f)

end EvmAssembler
