/-!
# `EvmAssembler.Text.Range`: classes of characters as tables of ranges

A character class that no short rule describes is stored as the ordered list of
its inclusive code point ranges. `inRanges` asks whether a character falls in one
of them. The tables themselves stand in the modules named for the property.
-/

set_option autoImplicit false

namespace EvmAssembler.Text

/-- Whether some range of the table holds the character. Both ends belong to a range. -/
def inRanges (ranges : List (Nat × Nat)) (c : Char) : Bool :=
  ranges.any fun r => r.1 ≤ c.toNat && c.toNat ≤ r.2

/-- A character is in a table when it lies between the ends of one of its ranges. -/
theorem inRanges_eq_true_iff {ranges : List (Nat × Nat)} {c : Char} :
    inRanges ranges c = true ↔ ∃ r ∈ ranges, r.1 ≤ c.toNat ∧ c.toNat ≤ r.2 := by
  simp [inRanges]

end EvmAssembler.Text
