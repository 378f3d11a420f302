import EvmAssembler.Instruction.Encode

/-!
# `EvmAssembler.Immediate`: numbers in push immediates

The immediate of a push is a natural number written big-endian in a fixed number of
bytes. `bytes` writes it, `toNat` reads it, and `width` is the least number of bytes,
one at least, that holds it. `pushInt` builds the push of a number from these.
-/

set_option autoImplicit false

namespace EvmAssembler

namespace Immediate

/-- The last `width` bytes of a number, most significant first. -/
def bytes : (width : Nat) → Nat → List UInt8
  | 0, _ => []
  | width + 1, n => bytes width (n / 256) ++ [UInt8.ofNat (n % 256)]

/-- The number that bytes stand for, most significant first. -/
def toNat (data : List UInt8) : Nat :=
  data.foldl (fun value b => value * 256 + b.toNat) 0

/-- The least number of bytes, one at least, that holds a number. -/
def width (n : Nat) : Nat :=
  if n < 256 then 1 else width (n / 256) + 1

/-- A fixed width is kept, whatever the number. -/
@[simp] theorem length_bytes (w n : Nat) : (bytes w n).length = w := by
  induction w generalizing n with
  | zero => rfl
  | succ w ih => simp [bytes, ih]

end Immediate

namespace Instruction

/-- The push of a natural number in exactly `width` bytes. -/
def pushNat (n width : Nat) : Except Error Instruction :=
  if n < Nat.pow 256 width then .ok (.push (Immediate.bytes width n))
  else refuse (.pushOverflow n width)

/-- The push of an integer, in the given width or in the least one. A negative integer is
refused first, then a width outside the range of pushes, then a number that does not fit. -/
def pushInt (value : Int) (width : Option Int) : Except Error Instruction :=
  if value < 0 then refuse (.negativePush (.int value))
  else
    let w := width.getD (Immediate.width value.toNat)
    (pushCode (.int w)).bind fun _ => pushNat value.toNat w.toNat

/-- The push of a loose number in a loose width; no width asks for the least one. A truth
value counts as an integer here. A real passes the checks on sign and width and then
fails, having no bytes. -/
def pushLoose (value width : Datum) : Except Error Instruction :=
  match value, value.integral? with
  | _, some n =>
    match width with
    | .null => pushInt n none
    | .int w => pushInt n (some w)
    | other => if n < 0 then refuse (.negativePush value) else refuse (.pushLength other)
  | .real x, none =>
    if x.quantity.lt (.finite 0 0) then refuse (.negativePush value)
    else match width with
      | .null => refuse .noSuchFeature
      | other => (pushCode other).bind fun _ => refuse .noSuchFeature
  | _, none => refuse .notComparable

end Instruction

end EvmAssembler
