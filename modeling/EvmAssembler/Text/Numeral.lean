import EvmAssembler.Text.DecimalDigit
import EvmAssembler.Text.Blank

/-!
# `EvmAssembler.Text.Numeral`: integers as text

Writing an integer in decimal or hexadecimal, and reading one back.

Decimal text is limited to `maxDecimalDigits` digits in both directions, because
its conversion takes quadratic time; hexadecimal text has no limit. A reader's
numeral may be surrounded by white space, may separate its digits by single
underscores, and may use the decimal digits of any script.
-/

set_option autoImplicit false

namespace EvmAssembler.Text

/-! ### Writing -/

/-- The most digits a decimal numeral may have, the sign not counted. -/
def maxDecimalDigits : Nat := 4300

/-- The first magnitude whose decimal numeral is too long. -/
def decimalLimit : Nat := Nat.pow 10 maxDecimalDigits

/-- Whether the integer's decimal numeral stays within the limit. -/
def hasDecimal (n : Int) : Bool :=
  n.natAbs < decimalLimit

/-- The limit is a power of ten, above all smaller ones. -/
theorem pow_le_decimalLimit {k : Nat} (h : k ≤ maxDecimalDigits) :
    Nat.pow 10 k ≤ decimalLimit := by
  -- Said of any exponent first, so that the power is never computed.
  have hmono : ∀ m, k ≤ m → Nat.pow 10 k ≤ Nat.pow 10 m :=
    fun m h => Nat.pow_le_pow_right (by decide) h
  unfold decimalLimit
  exact hmono _ h

/-- An integer of few enough digits has a decimal numeral. -/
theorem hasDecimal_of_natAbs_lt {n : Int} {k : Nat} (hk : k ≤ maxDecimalDigits)
    (hn : n.natAbs < Nat.pow 10 k) : hasDecimal n = true := by
  unfold hasDecimal
  exact decide_eq_true (Nat.lt_of_lt_of_le hn (pow_le_decimalLimit hk))

/-- The decimal digits of a number. -/
def decimal (n : Nat) : String :=
  String.ofList (Nat.toDigits 10 n)

/-- The decimal numeral of an integer. -/
def signedDecimal (n : Int) : String :=
  if n < 0 then "-" ++ decimal n.natAbs else decimal n.natAbs

/-- The lower case hexadecimal digits of a number. -/
def hexDigits (n : Nat) : List Char :=
  Nat.toDigits 16 n

/-- The upper case hexadecimal digits of a number. -/
def capitalHex (n : Nat) : String :=
  String.ofList ((hexDigits n).map Char.toUpper)

/-- The text widened on the left to at least `width` characters. -/
def padStart (width : Nat) (fill : Char) (text : String) : String :=
  String.ofList (List.replicate (width - text.length) fill) ++ text

/-- The text widened on the right to at least `width` characters. -/
def padEnd (width : Nat) (fill : Char) (text : String) : String :=
  text ++ String.ofList (List.replicate (width - text.length) fill)

/-- The digit of a value below sixteen. -/
def hexDigit (n : Nat) : Char :=
  Nat.digitChar (n % 16)

/-- A byte as two lower case hexadecimal digits. -/
def byteHex (b : UInt8) : List Char :=
  [hexDigit (b.toNat / 16), hexDigit b.toNat]

/-- Bytes as lower case hexadecimal digits, two for each. -/
def bytesHex (bytes : List UInt8) : String :=
  String.ofList (bytes.flatMap byteHex)

/-! ### Reading -/

/-- The value of an ASCII hexadecimal digit. -/
def hexDigit? (c : Char) : Option Nat :=
  if '0' ≤ c ∧ c ≤ '9' then some (c.toNat - '0'.toNat)
  else if 'a' ≤ c ∧ c ≤ 'f' then some (c.toNat - 'a'.toNat + 10)
  else if 'A' ≤ c ∧ c ≤ 'F' then some (c.toNat - 'A'.toNat + 10)
  else none

/-- The number that digits in a base stand for, most significant first. -/
def ofDigits (base : Nat) (digits : List Nat) : Nat :=
  digits.foldl (fun value digit => value * base + digit) 0

/-- The values of a run of digits. A single underscore may stand between two
digits; nothing else may, and there is at least one digit. -/
def digitRun (digit? : Char → Option Nat) : List Char → Option (List Nat)
  | [] => none
  | [c] => (digit? c).map ([·])
  | c :: '_' :: rest => (digit? c).bind fun d => (digitRun digit? rest).map (d :: ·)
  | c :: rest => (digit? c).bind fun d => (digitRun digit? rest).map (d :: ·)

/-- The text without the white space around a numeral. -/
def trimBlanks (cs : List Char) : List Char :=
  ((cs.dropWhile isNumeralBlank).reverse.dropWhile isNumeralBlank).reverse

/-- What reading a numeral can come to. -/
inductive Reading where
  | value (n : Int)
  /-- The text is no numeral. -/
  | malformed
  /-- The numeral has more decimal digits than the limit allows. -/
  | tooLong
  deriving DecidableEq, Repr

/-- Whether a numeral is negative, and what follows its sign. -/
def splitSign : List Char → Bool × List Char
  | '-' :: rest => (true, rest)
  | '+' :: rest => (false, rest)
  | rest => (false, rest)

/-- Reads a decimal numeral with an optional sign. Leading zeros count as digits. -/
def readDecimal (text : List Char) : Reading :=
  let signed := splitSign (trimBlanks text)
  match digitRun decimalDigit? signed.2 with
  | none => .malformed
  | some ds =>
    if maxDecimalDigits < ds.length then .tooLong
    else .value (if signed.1 then -(ofDigits 10 ds : Nat) else (ofDigits 10 ds : Nat))

/-- Whether the text starts with the mark of a hexadecimal numeral. -/
def isHexMarked : List Char → Bool
  | '0' :: x :: _ => x == 'x' || x == 'X'
  | _ => false

/-- What follows a mark: an underscore right behind it does not count. -/
def afterMark : List Char → List Char
  | '_' :: rest => rest
  | rest => rest

/-- Reads a hexadecimal numeral that starts with its mark. An underscore may stand
between the mark and the first digit too. -/
def readHex (text : List Char) : Reading :=
  let digits := afterMark ((trimBlanks text).drop 2)
  match digitRun (fun c => (hexDigit? c).orElse fun _ => decimalDigit? c) digits with
  | none => .malformed
  | some ds => .value (ofDigits 16 ds : Nat)

/-- Reads an integer literal: hexadecimal if it is marked so, decimal otherwise. -/
def readInteger (text : List Char) : Reading :=
  if isHexMarked text then readHex text else readDecimal text

/-- Reads pairs of hexadecimal digits as bytes. ASCII blanks may stand before,
between and after the pairs, but not inside one. -/
def readByteDigits : List Char → Option (List UInt8)
  | [] => some []
  | c :: rest =>
    if isAsciiBlank c then readByteDigits rest
    else match rest with
      | [] => none
      | d :: rest => (hexDigit? c).bind fun high => (hexDigit? d).bind fun low =>
        (readByteDigits rest).map (UInt8.ofNat (high * 16 + low) :: ·)

/-- Reads the digits of a marked hexadecimal literal as bytes. An odd number of
characters is evened out by a zero in front. -/
def readHexBytes (literal : List Char) : Option (List UInt8) :=
  let digits := literal.drop 2
  readByteDigits (if digits.length % 2 = 1 then '0' :: digits else digits)

end EvmAssembler.Text
