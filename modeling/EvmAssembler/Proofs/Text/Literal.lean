import EvmAssembler.Proofs.Immediate

/-!
# `EvmAssembler.Proofs.Text.Literal`: what an integer literal is worth

The grammar takes two shapes of literals, decimal and hexadecimal, and hands them on as they
are written. `Text.IsLiteral` states the two shapes and `Text.literalValue` their worth, by
place value. Neither mentions the readers, which accept much more: blanks, signs,
underscores and digits of other scripts.

On a literal of the grammar the readers come down to place value:

* `readInteger_eq` and `readDecimal_eq`: a literal is read as its value, and refused only if
  it is decimal and longer than the limit, however small its value.
* `readHexBytes_eq`: the digits of a hexadecimal literal, taken in pairs, are the bytes of its
  value in the width that its digits fill.
-/

set_option autoImplicit false

namespace EvmAssembler.Text

/-! ### Digits as characters -/

/-- The ASCII digits by code point. -/
theorem isDigit_iff {c : Char} : c.isDigit = true ↔ 48 ≤ c.toNat ∧ c.toNat ≤ 57 := by
  simp only [Char.isDigit, Bool.and_eq_true, decide_eq_true_eq, ge_iff_le,
    UInt32.le_iff_toNat_le]
  rfl

/-- The hexadecimal digits by code point. -/
theorem isSome_hexDigit?_iff {c : Char} :
    (hexDigit? c).isSome = true ↔ (48 ≤ c.toNat ∧ c.toNat ≤ 57) ∨
      (97 ≤ c.toNat ∧ c.toNat ≤ 102) ∨ (65 ≤ c.toNat ∧ c.toNat ≤ 70) := by
  have hle : ∀ a b : Char, a ≤ b ↔ a.toNat ≤ b.toNat := fun _ _ => Iff.rfl
  simp only [hexDigit?, hle, show '0'.toNat = 48 from rfl, show '9'.toNat = 57 from rfl,
    show 'a'.toNat = 97 from rfl, show 'f'.toNat = 102 from rfl, show 'A'.toNat = 65 from rfl,
    show 'F'.toNat = 70 from rfl]
  split
  · simp_all
  · split
    · simp_all
    · split <;> simp_all

/-- A decimal digit is a hexadecimal one of the same value. -/
theorem hexDigit?_of_isDigit {c : Char} (h : c.isDigit = true) :
    hexDigit? c = some (c.toNat - '0'.toNat) :=
  if_pos (isDigit_iff.mp h)

/-- ASCII comes first among the scripts. -/
theorem decimalDigit?_of_isDigit {c : Char} (h : c.isDigit = true) :
    decimalDigit? c = some (c.toNat - '0'.toNat) := by
  obtain ⟨h1, h2⟩ := isDigit_iff.mp h
  rw [decimalDigit?, digitZeros, List.find?_cons_of_pos (by simp; omega)]
  rfl

/-- Printing ASCII is not white space. -/
theorem isBlank_eq_false {c : Char} (h1 : 0x20 < c.toNat) (h2 : c.toNat < 0x85) :
    isBlank c = false := by
  rw [Bool.eq_false_iff]
  intro h
  obtain ⟨r, hr, hlow, hhigh⟩ := inRanges_eq_true_iff.mp h
  simp only [blankRanges, List.mem_cons, List.not_mem_nil, or_false] at hr
  rcases hr with rfl | rfl | rfl | rfl | rfl | rfl | rfl | rfl | rfl | rfl <;>
    dsimp only at hlow hhigh <;> omega

/-- A hexadecimal digit is printing ASCII. -/
theorem isBlank_of_isSome_hexDigit? {c : Char} (h : (hexDigit? c).isSome = true) :
    isBlank c = false := by
  have := isSome_hexDigit?_iff.mp h
  exact isBlank_eq_false (by omega) (by omega)

/-! ### Literals -/

/-- The literals the grammar takes: hexadecimal ones with their mark, and decimal ones. -/
inductive IsLiteral : List Char → Prop where
  | hex {x : Char} {digits : List Char} (mark : x = 'x' ∨ x = 'X') (nonempty : digits ≠ [])
    (inBase : ∀ c ∈ digits, (hexDigit? c).isSome = true) : IsLiteral ('0' :: x :: digits)
  | decimal {digits : List Char} (nonempty : digits ≠ [])
    (inBase : ∀ c ∈ digits, c.isDigit = true) : IsLiteral digits

/-- The digits of a literal: what follows the mark, or all of it. -/
def literalDigits (text : List Char) : List Char :=
  if isHexMarked text then text.drop 2 else text

/-- The value of a digit. What is no digit counts as nothing. -/
def digitValue (c : Char) : Nat :=
  (hexDigit? c).getD 0

/-- No digit is worth sixteen. -/
theorem digitValue_lt (c : Char) : digitValue c < 16 := by
  have hle : ∀ a b : Char, a ≤ b ↔ a.toNat ≤ b.toNat := fun _ _ => Iff.rfl
  simp only [digitValue, hexDigit?, hle, show '0'.toNat = 48 from rfl,
    show '9'.toNat = 57 from rfl, show 'a'.toNat = 97 from rfl, show 'f'.toNat = 102 from rfl,
    show 'A'.toNat = 65 from rfl, show 'F'.toNat = 70 from rfl]
  split
  · dsimp only [Option.getD_some]; omega
  · split
    · dsimp only [Option.getD_some]; omega
    · split
      · dsimp only [Option.getD_some]; omega
      · decide

/-- The value of a literal by place value, in the base that its mark tells. -/
def literalValue (text : List Char) : Nat :=
  ofDigits (if isHexMarked text then 16 else 10) ((literalDigits text).map digitValue)

/-- A literal can be read: one with a mark always, and any other if it is no longer than the
limit for decimal numerals. -/
def IsReadable (text : List Char) : Prop :=
  isHexMarked text = false → text.length ≤ maxDecimalDigits

instance (text : List Char) : Decidable (IsReadable text) :=
  inferInstanceAs (Decidable (isHexMarked text = false → text.length ≤ maxDecimalDigits))

/-- A literal with the hexadecimal mark can be read at any length. -/
theorem isReadable_of_isHexMarked {text : List Char} (hmarked : isHexMarked text = true) :
    IsReadable text := by
  intro hplain
  rw [hmarked] at hplain
  cases hplain

/-- The mark of a hexadecimal literal. -/
theorem isHexMarked_hex {x : Char} {digits : List Char} (mark : x = 'x' ∨ x = 'X') :
    isHexMarked ('0' :: x :: digits) = true := by
  rcases mark with rfl | rfl <;> rfl

/-- Digits alone are no mark. -/
theorem isHexMarked_decimal {digits : List Char} (h : ∀ c ∈ digits, c.isDigit = true) :
    isHexMarked digits = false := by
  unfold isHexMarked
  split
  · rename_i x rest
    have hx : x.isDigit = true := h x (List.mem_cons_of_mem _ List.mem_cons_self)
    rw [Bool.or_eq_false_iff, beq_eq_false_iff_ne, beq_eq_false_iff_ne]
    constructor <;> rintro rfl <;> exact absurd hx (by decide)
  · rfl

/-! ### Reading them -/

/-- Nothing is trimmed where nothing is blank. -/
theorem trimBlanks_eq_self {text : List Char} (h : ∀ c ∈ text, isBlank c = false) :
    trimBlanks text = text := by
  have hkeep : ∀ cs : List Char, (∀ c ∈ cs, isBlank c = false) →
      cs.dropWhile isNumeralBlank = cs := by
    intro cs hcs
    cases cs with
    | nil => rfl
    | cons c cs =>
      have hc : isNumeralBlank c = false := by
        rw [isNumeralBlank, hcs c List.mem_cons_self, Bool.false_and]
      rw [List.dropWhile_cons, hc]
      rfl
  rw [trimBlanks, hkeep text h, hkeep text.reverse (by simpa using h), List.reverse_reverse]

/-- A run of digits without separators is read digit by digit. -/
theorem digitRun_eq {digit? : Char → Option Nat} {value : Char → Nat} {cs : List Char}
    (hne : cs ≠ []) (h : ∀ c ∈ cs, digit? c = some (value c) ∧ c ≠ '_') :
    digitRun digit? cs = some (cs.map value) := by
  induction cs with
  | nil => exact absurd rfl hne
  | cons c cs ih =>
    obtain ⟨hc, -⟩ := h c List.mem_cons_self
    cases cs with
    | nil => rw [digitRun, hc]; rfl
    | cons d cs =>
      -- A separator would have to be the next character, and that is a digit.
      have hd : d ≠ '_' := (h d (by simp)).2
      have hrest := ih (by simp) fun e he => h e (List.mem_cons_of_mem _ he)
      rw [digitRun, hc, hrest]
      · rfl
      · intro h
        cases h
      · intro rest hrest
        exact hd (List.cons.inj hrest).1

/-- Decimal digits stand for themselves, and none of them is a separator. -/
theorem decimal_digit_eq {c : Char} (h : c.isDigit = true) :
    decimalDigit? c = some (digitValue c) ∧ c ≠ '_' := by
  rw [decimalDigit?_of_isDigit h, digitValue, hexDigit?_of_isDigit h]
  refine ⟨rfl, ?_⟩
  rintro rfl
  exact absurd h (by decide)

/-- Hexadecimal digits stand for themselves, and none of them is a separator. -/
theorem hex_digit_eq {c : Char} (h : (hexDigit? c).isSome = true) :
    hexDigit? c = some (digitValue c) ∧ c ≠ '_' := by
  obtain ⟨n, hn⟩ := Option.isSome_iff_exists.mp h
  rw [digitValue, hn]
  refine ⟨rfl, ?_⟩
  rintro rfl
  exact absurd h (by decide)

/-- A digit in front is no sign. -/
theorem splitSign_eq {c : Char} {cs : List Char} (h : c.isDigit = true) :
    splitSign (c :: cs) = (false, c :: cs) := by
  unfold splitSign
  split
  · rename_i hminus
    rw [(List.cons.inj hminus).1] at h
    exact absurd h (by decide)
  · rename_i hplus
    rw [(List.cons.inj hplus).1] at h
    exact absurd h (by decide)
  · rfl

/-- A digit behind the mark is no separator. -/
theorem afterMark_eq {digits : List Char} (h : ∀ c ∈ digits, (hexDigit? c).isSome = true) :
    afterMark digits = digits := by
  unfold afterMark
  split
  · exact absurd rfl (hex_digit_eq (h '_' List.mem_cons_self)).2
  · rfl

/-- A run of ASCII digits is read by place value, up to the limit on its length. -/
theorem readDecimal_eq {digits : List Char} (hne : digits ≠ [])
    (h : ∀ c ∈ digits, c.isDigit = true) :
    readDecimal digits =
      if maxDecimalDigits < digits.length then .tooLong
      else .value (ofDigits 10 (digits.map digitValue) : Nat) := by
  -- Neither blanks nor a sign nor separators: the run of digits is all there is.
  have htrim : trimBlanks digits = digits := trimBlanks_eq_self fun c hc => by
    have := isDigit_iff.mp (h c hc)
    exact isBlank_eq_false (by omega) (by omega)
  have hsign : splitSign digits = (false, digits) := by
    cases digits with
    | nil => exact absurd rfl hne
    | cons c cs => exact splitSign_eq (h c List.mem_cons_self)
  have hrun : digitRun decimalDigit? digits = some (digits.map digitValue) :=
    digitRun_eq hne fun c hc => decimal_digit_eq (h c hc)
  rw [readDecimal, htrim, hsign]
  dsimp only
  rw [hrun]
  dsimp only
  rw [List.length_map]
  rfl

/-- A literal is read as its value, unless it is decimal and too long. -/
theorem readInteger_eq {text : List Char} (h : IsLiteral text) :
    readInteger text = if IsReadable text then .value (literalValue text : Nat) else .tooLong := by
  cases h with
  | @hex x digits mark hne hbase =>
    have hmarked := @isHexMarked_hex x digits mark
    have hreadable := isReadable_of_isHexMarked hmarked
    have htrim : trimBlanks ('0' :: x :: digits) = '0' :: x :: digits := by
      refine trimBlanks_eq_self fun c hc => ?_
      rcases List.mem_cons.mp hc with rfl | hc
      · decide
      · rcases List.mem_cons.mp hc with rfl | hc
        · rcases mark with rfl | rfl <;> decide
        · exact isBlank_of_isSome_hexDigit? (hbase c hc)
    -- Digits of other scripts are tried second, so they do not matter here.
    have hrun : digitRun (fun c => (hexDigit? c).orElse fun _ => decimalDigit? c) digits =
        some (digits.map digitValue) := digitRun_eq hne fun c hc => by
      obtain ⟨hc, hsep⟩ := hex_digit_eq (hbase c hc)
      rw [hc]
      exact ⟨rfl, hsep⟩
    rw [readInteger, hmarked, if_pos rfl, if_pos hreadable, readHex, htrim, literalValue,
      literalDigits, hmarked, List.drop_succ_cons, List.drop_succ_cons, List.drop_zero,
      afterMark_eq hbase, hrun]
    rfl
  | decimal hne hbase =>
    have hmarked := isHexMarked_decimal hbase
    have hreadable : IsReadable text ↔ ¬maxDecimalDigits < text.length :=
      ⟨fun h => Nat.not_lt.mpr (h hmarked), fun h _ => Nat.not_lt.mp h⟩
    rw [readInteger, hmarked, if_neg (by decide), readDecimal_eq hne hbase, literalValue,
      literalDigits, hmarked]
    by_cases hlong : maxDecimalDigits < text.length
    · rw [if_pos hlong, if_neg (hreadable.not.mpr (not_not_intro hlong))]
    · rw [if_neg hlong, if_pos (hreadable.mpr hlong)]
      rfl

/-! ### Reading them as bytes -/

/-- The number of bytes that the digits of a hexadecimal literal fill. -/
def literalBytes (text : List Char) : Nat :=
  ((literalDigits text).length + 1) / 2

/-- An even number of hexadecimal digits is read in pairs, as the bytes of its value. -/
theorem readByteDigits_eq (k : Nat) {digits : List Char} (hlen : digits.length = 2 * k)
    (h : ∀ c ∈ digits, (hexDigit? c).isSome = true) :
    readByteDigits digits = some (Immediate.bytes k (ofDigits 16 (digits.map digitValue))) := by
  -- It is enough to find as many bytes that read as the same number.
  suffices hread : ∃ data, readByteDigits digits = some data ∧ data.length = k ∧
      Immediate.toNat data = ofDigits 16 (digits.map digitValue) by
    obtain ⟨data, hdata, rfl, hvalue⟩ := hread
    rw [hdata, ← hvalue, Immediate.bytes_toNat]
  induction k generalizing digits with
  | zero =>
    obtain rfl := List.length_eq_zero_iff.mp hlen
    exact ⟨[], by rw [readByteDigits], rfl, rfl⟩
  | succ k ih =>
    match digits, hlen with
    | c :: d :: rest, hlen =>
      have hc := h c List.mem_cons_self
      have hd := h d (by simp)
      obtain ⟨data, hdata, hlength, hvalue⟩ := @ih rest
        (by simp only [List.length_cons] at hlen; omega) fun e he => h e (by simp [he])
      -- Blanks between pairs would be skipped, but a digit is none.
      have hblank : isAsciiBlank c = false := by
        have := isSome_hexDigit?_iff.mp hc
        have hspace : c ≠ ' ' := by rintro rfl; revert hc; decide
        simp only [isAsciiBlank, Bool.or_eq_false_iff, beq_eq_false_iff_ne, ne_eq, hspace,
          not_false_eq_true, true_and, Bool.and_eq_false_iff, decide_eq_false_iff_not]
        omega
      have hbyte : (UInt8.ofNat (digitValue c * 16 + digitValue d)).toNat =
          digitValue c * 16 + digitValue d := by
        have := digitValue_lt c
        have := digitValue_lt d
        exact UInt8.toNat_ofNat_of_lt' (by show _ < 256; omega)
      have hdigits : rest.length = 2 * data.length := by
        simp only [List.length_cons] at hlen
        omega
      refine ⟨UInt8.ofNat (digitValue c * 16 + digitValue d) :: data, ?_, by simp [hlength], ?_⟩
      · rw [readByteDigits, hblank, (hex_digit_eq hc).1, (hex_digit_eq hd).1, hdata]
        rfl
      · rw [Immediate.toNat_cons, hbyte, hvalue, List.map_cons, List.map_cons, ofDigits_cons,
          ofDigits_cons, List.length_cons, List.length_map, hdigits, Nat.pow_succ, Nat.pow_mul]
        ring

/-- A hexadecimal literal, taken digit by digit, gives the bytes of its value in the width
that its digits fill. -/
theorem readHexBytes_eq {text : List Char} (h : IsLiteral text)
    (hmarked : isHexMarked text = true) :
    readHexBytes text = some (Immediate.bytes (literalBytes text) (literalValue text)) := by
  cases h with
  | decimal hne hbase =>
    rw [isHexMarked_decimal hbase] at hmarked
    cases hmarked
  | @hex x digits mark hne hbase =>
    rw [literalValue, literalBytes, literalDigits, hmarked]
    show readByteDigits (if digits.length % 2 = 1 then '0' :: digits else digits) =
      some (Immediate.bytes ((digits.length + 1) / 2) (ofDigits 16 (digits.map digitValue)))
    by_cases hodd : digits.length % 2 = 1
    · -- The zero in front changes the length and not the value.
      have hzero : ofDigits 16 (('0' :: digits).map digitValue) =
          ofDigits 16 (digits.map digitValue) := by
        rw [List.map_cons, ofDigits_cons, show digitValue '0' = 0 from rfl, Nat.zero_mul,
          Nat.zero_add]
      rw [if_pos hodd, ← hzero]
      refine readByteDigits_eq _ (by rw [List.length_cons]; omega) fun c hc => ?_
      rcases List.mem_cons.mp hc with rfl | hc
      · rfl
      · exact hbase c hc
    · rw [if_neg hodd]
      exact readByteDigits_eq _ (by omega) hbase

end EvmAssembler.Text
