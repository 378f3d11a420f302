import EvmAssembler.Number.Binary64
import EvmAssembler.Text.Numeral

/-!
# `EvmAssembler.Number.Shortest`: the shortest decimal that reads back

A floating point number is shown by the fewest decimal digits that still identify
it. The numbers that round to `m · 2 ^ q` fill an interval around it, ends included
when `m` is even; for one digit, two digits and so on the two decimals next to the
number are tried, and the first length with a hit wins. Of two hits the nearer one
is taken, and of two equally near the even one. All of it is exact arithmetic on
naturals.
-/

set_option autoImplicit false

namespace EvmAssembler

/-- A decimal number `digits · 10 ^ exponent`. -/
structure Decimal where
  digits : Nat
  exponent : Int
  deriving DecidableEq, Repr

namespace Binary64

/-- The number of quarter units `2 ^ (q - 2)` between the number and the lower end
of its interval: half a unit, but half of that where the unit below is smaller. -/
def quartersBelow (m : Nat) (q : Int) : Nat :=
  if m = hiddenBit ∧ q ≠ -1074 then 1 else 2

/-- `a · 2 ^ (q - 2)` in units of `10 ^ e`, as a fraction. -/
def inDecimalUnits (a : Nat) (q e : Int) : Nat × Nat :=
  (a * Nat.pow 2 (q - 2).toNat * Nat.pow 10 (-e).toNat,
    Nat.pow 2 (2 - q).toNat * Nat.pow 10 e.toNat)

/-- The decimal on the grid `10 ^ e` that reads back as `m · 2 ^ q`, if there is one. -/
def onGrid? (m : Nat) (q e : Int) : Option Decimal :=
  let (value, unit) := inDecimalUnits (4 * m) q e
  let (low, _) := inDecimalUnits (4 * m - quartersBelow m q) q e
  let (high, _) := inDecimalUnits (4 * m + 2) q e
  -- A tie rounds to the even mantissa, so only an even one owns the ends of its interval.
  let hits (k : Nat) : Bool :=
    if m % 2 = 0 then low ≤ k * unit && k * unit ≤ high
    else low < k * unit && k * unit < high
  let below := value / unit
  let above := below + 1
  let nearBelow := 2 * (value % unit) < unit || (2 * (value % unit) = unit && below % 2 = 0)
  match hits below, hits above with
  | true, true => some ⟨if nearBelow then below else above, e⟩
  | true, false => some ⟨below, e⟩
  | false, true => some ⟨above, e⟩
  | false, false => none

/-- The power of ten of the leading digit of `m · 2 ^ q`. -/
def leadingPower (m : Nat) (q : Int) : Int :=
  -- Doubles reach from `10 ^ 308` down to `10 ^ -324`.
  let reaches (i : Nat) : Bool :=
    let (value, unit) := inDecimalUnits (4 * m) q (308 - (i : Int))
    unit ≤ value
  308 - (((List.range 632).find? reaches).getD 632 : Nat)

/-- Trailing zeros move from the digits to the exponent. -/
def trimZeros (fuel : Nat) (d : Decimal) : Decimal :=
  match fuel with
  | 0 => d
  | fuel + 1 =>
    if d.digits ≠ 0 ∧ d.digits % 10 = 0 then trimZeros fuel ⟨d.digits / 10, d.exponent + 1⟩ else d

/-- The shortest decimal that reads back as `m · 2 ^ q`. Seventeen digits always do. -/
def shortest (m : Nat) (q : Int) : Decimal :=
  if m = 0 then ⟨0, 0⟩
  else
    let top := leadingPower m q
    let grids := (List.range 17).map fun (p : Nat) => top - (p : Int)
    trimZeros 17 ((grids.findSome? fun e => onGrid? m q e).getD ⟨0, 0⟩)

/-- Positional text for a leading digit between `10 ^ -4` and `10 ^ 16`, always with
a fraction; scientific text with a signed exponent of two digits or more otherwise. -/
def text (x : Binary64) : String :=
  let sign := if x.negative then "-" else ""
  if !x.isFinite then
    if x.fraction = 0 then sign ++ "inf" else "nan"
  else
    let d := shortest x.mantissa x.exponent
    let digits := Text.decimal d.digits
    let point : Int := digits.length + d.exponent
    let zeros (n : Int) : String := String.ofList (List.replicate n.toNat '0')
    if d.digits = 0 then sign ++ "0.0"
    else if point ≤ -4 ∨ 16 < point then
      let fraction := String.ofList (digits.toList.drop 1)
      let power := Text.padStart 2 '0' (Text.decimal (point - 1).natAbs)
      sign ++ String.ofList (digits.toList.take 1)
        ++ (if fraction = "" then "" else "." ++ fraction)
        ++ (if point - 1 < 0 then "e-" else "e+") ++ power
    else if point ≤ 0 then sign ++ "0." ++ zeros (-point) ++ digits
    else if (digits.length : Int) ≤ point then
      sign ++ digits ++ zeros (point - digits.length) ++ ".0"
    else
      sign ++ String.ofList (digits.toList.take point.toNat) ++ "."
        ++ String.ofList (digits.toList.drop point.toNat)

end Binary64

end EvmAssembler
