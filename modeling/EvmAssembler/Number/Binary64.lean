/-!
# `EvmAssembler.Number.Binary64`: 64-bit binary floating point

A real operand handed to the library is kept as its 64-bit interchange encoding
and read exactly: a finite number is `± mantissa · 2 ^ exponent`. Everything the
library asks about such a number (is it zero, is it even, how does it compare with
an integer) is answered in integers, so no rounding takes place here.
-/

set_option autoImplicit false

namespace EvmAssembler

/-- A floating point number by its interchange encoding. -/
structure Binary64 where
  bits : UInt64
  deriving DecidableEq, Repr

namespace Binary64

/-- Whether the sign bit is set. -/
def negative (x : Binary64) : Bool :=
  x.bits >>> 63 == 1

/-- The stored exponent, eleven bits. -/
def storedExponent (x : Binary64) : Nat :=
  (x.bits >>> 52 &&& 0x7ff).toNat

/-- The stored fraction, the last fifty-two bits. -/
def fraction (x : Binary64) : Nat :=
  (x.bits &&& 0xfffffffffffff).toNat

/-- The value of the bit in front of the fraction, which is not stored. -/
def hiddenBit : Nat := 0x10000000000000

/-- Whether the number is finite. The largest stored exponent marks the others. -/
def isFinite (x : Binary64) : Bool :=
  x.storedExponent < 2047

/-- The integer mantissa, the hidden bit included. -/
def mantissa (x : Binary64) : Nat :=
  if x.storedExponent = 0 then x.fraction else hiddenBit + x.fraction

/-- The power of two that scales the mantissa. -/
def exponent (x : Binary64) : Int :=
  (max x.storedExponent 1 : Nat) - 1075

end Binary64

end EvmAssembler
