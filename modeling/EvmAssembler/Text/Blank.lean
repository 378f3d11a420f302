import EvmAssembler.Text.Range

/-!
# `EvmAssembler.Text.Blank`: white space

Three classes of white space meet in this library, each inside the next:

* `isSkipped`: the four characters the assembler passes over before a token;
* `isAsciiBlank`: the six ASCII blanks that may stand between the digit pairs of a
  byte literal;
* `isBlank`: all of Unicode's white space, together with the four information
  separators. The last character of a rejected line is never one of these.
-/

set_option autoImplicit false

namespace EvmAssembler.Text

/-- Space, tab, carriage return and line feed. -/
def isSkipped (c : Char) : Bool :=
  c == ' ' || c == '\t' || c == '\r' || c == '\n'

/-- The ASCII blanks: the skipped four, vertical tab and form feed. -/
def isAsciiBlank (c : Char) : Bool :=
  c == ' ' || (9 ≤ c.toNat && c.toNat ≤ 13)

/-- The white space characters of Unicode 14. -/
def blankRanges : List (Nat × Nat) :=
  [(0x9, 0xD), (0x1C, 0x20), (0x85, 0x85), (0xA0, 0xA0), (0x1680, 0x1680), (0x2000, 0x200A),
   (0x2028, 0x2029), (0x202F, 0x202F), (0x205F, 0x205F), (0x3000, 0x3000)]

/-- Whether the character is white space. -/
def isBlank (c : Char) : Bool :=
  inRanges blankRanges c

/-- White space that may surround a numeral: the information separators may not. -/
def isNumeralBlank (c : Char) : Bool :=
  isBlank c && !(0x1C ≤ c.toNat && c.toNat ≤ 0x1F)

/-- All that is passed over before a token is white space. -/
theorem isBlank_of_isSkipped {c : Char} (h : isSkipped c = true) : isBlank c = true := by
  simp only [isSkipped, Bool.or_eq_true, beq_iff_eq] at h
  rcases h with ((rfl | rfl) | rfl) | rfl <;> decide

end EvmAssembler.Text
