import EvmAssembler.Proofs.Text.Literal
import EvmAssembler.Source.Spelling
import EvmAssembler.Text.Case

/-!
# `EvmAssembler.Proofs.Text.Letters`: what letter case leaves alone

`SameLetters` allows any case for any ASCII letter. Everything the grammar and the readers do
with a written word comes out the same, since they fold the case one way or the other:

* `SameLetters.capitals_eq`: the capitals that mnemonics are compared in.
* `SameLetters.digitValues_eq`: the values of hexadecimal digits.
* `SameLetters.eq_of_isDigit`: decimal digits have no case, so they are written as they are.

The section on digits adds what the writers of numerals give the readers back: `ofDigits` of
the digits of a number, or of the digit pairs of bytes, is the number.
-/

set_option autoImplicit false

namespace EvmAssembler

/-! ### One letter -/

section
variable {c d : Char}

/-- Capital letters are 32 code points before their small ones. -/
theorem toNat_toLower (c : Char) :
    c.toLower.toNat = if 65 ≤ c.toNat ∧ c.toNat ≤ 90 then c.toNat + 32 else c.toNat := by
  have hcap : (c.val ≥ 'A'.val ∧ c.val ≤ 'Z'.val) ↔ 65 ≤ c.toNat ∧ c.toNat ≤ 90 := by
    rw [ge_iff_le, UInt32.le_iff_toNat_le, UInt32.le_iff_toNat_le]
    rfl
  unfold Char.toLower
  by_cases h : 65 ≤ c.toNat ∧ c.toNat ≤ 90
  · rw [dif_pos (hcap.mpr h), if_pos h]
    show (c.val + ('a'.val - 'A'.val)).toNat = c.val.toNat + 32
    have hval : c.val.toNat ≤ 90 := h.2
    rw [UInt32.toNat_add, show ('a'.val - 'A'.val).toNat = 32 from rfl]
    omega
  · rw [dif_neg (hcap.not.mpr h), if_neg h]

/-- A capital stands 32 places in front of its small letter, and what is no small letter stays. -/
theorem toNat_toUpper (c : Char) :
    c.toUpper.toNat = if 97 ≤ c.toNat ∧ c.toNat ≤ 122 then c.toNat - 32 else c.toNat := by
  have hsmall : ('a'.val ≤ c.val ∧ c.val ≤ 'z'.val) ↔ 97 ≤ c.toNat ∧ c.toNat ≤ 122 := by
    rw [UInt32.le_iff_toNat_le, UInt32.le_iff_toNat_le]
    rfl
  unfold Char.toUpper
  by_cases h : 97 ≤ c.toNat ∧ c.toNat ≤ 122
  · rw [dif_pos (hsmall.mpr h), if_pos h]
    show (c.val + ('A'.val - 'a'.val)).toNat = c.val.toNat - 32
    have hlow : 97 ≤ c.val.toNat := h.1
    have hhigh : c.val.toNat ≤ 122 := h.2
    -- The difference is negative, so it is added from the other end of the word.
    rw [UInt32.toNat_add, show ('A'.val - 'a'.val).toNat = 2 ^ 32 - 32 from rfl]
    omega
  · rw [dif_neg (hsmall.not.mpr h), if_neg h]

/-- Letters that are the same when small are the same or differ by their case. -/
theorem toNat_of_toLower_eq (h : c.toLower = d.toLower) :
    c.toNat = d.toNat ∨ (65 ≤ d.toNat ∧ d.toNat ≤ 90 ∧ c.toNat = d.toNat + 32) ∨
      (97 ≤ d.toNat ∧ d.toNat ≤ 122 ∧ c.toNat + 32 = d.toNat) := by
  have hnat := congrArg Char.toNat h
  rw [toNat_toLower, toNat_toLower] at hnat
  split at hnat <;> split at hnat <;> omega

/-- Characters that have one small letter have one capital. -/
theorem toUpper_eq_of_toLower_eq (h : c.toLower = d.toLower) : c.toUpper = d.toUpper := by
  have hnat := toNat_of_toLower_eq h
  refine Char.toNat_inj.mp ?_
  rw [toNat_toUpper, toNat_toUpper]
  split <;> split <;> omega

/-- Neither case keeps a trace of the other. -/
theorem toUpper_toLower (c : Char) : c.toLower.toUpper = c.toUpper := by
  refine toUpper_eq_of_toLower_eq (Char.toNat_inj.mp ?_)
  rw [toNat_toLower, toNat_toLower]
  by_cases hc : 65 ≤ c.toNat ∧ c.toNat ≤ 90
  · rw [if_pos hc, if_neg (by omega)]
  · rw [if_neg hc, if_neg hc]

/-- Capitals do not change the small letter. -/
theorem toLower_toUpper (c : Char) : c.toUpper.toLower = c.toLower := by
  refine Char.toNat_inj.mp ?_
  rw [toNat_toLower, toNat_toLower, toNat_toUpper]
  by_cases hc : 97 ≤ c.toNat ∧ c.toNat ≤ 122
  · rw [if_pos hc, if_pos (by omega), if_neg (by omega)]
    omega
  · rw [if_neg hc]

/-- A character without a case of its own is written in one way. -/
theorem eq_of_toLower_eq (h : c.toLower = d.toLower)
    (hd : ¬(65 ≤ d.toNat ∧ d.toNat ≤ 90) ∧ ¬(97 ≤ d.toNat ∧ d.toNat ≤ 122)) : c = d := by
  have hnat := toNat_of_toLower_eq h
  exact Char.toNat_inj.mp (by omega)

/-- Hexadecimal digits have a value in either case. -/
theorem hexDigit?_eq_of_toLower_eq (h : c.toLower = d.toLower) :
    Text.hexDigit? c = Text.hexDigit? d := by
  have hle : ∀ a b : Char, a ≤ b ↔ a.toNat ≤ b.toNat := fun _ _ => Iff.rfl
  have hnat := toNat_of_toLower_eq h
  simp only [Text.hexDigit?, hle, show '0'.toNat = 48 from rfl, show '9'.toNat = 57 from rfl,
    show 'a'.toNat = 97 from rfl, show 'f'.toNat = 102 from rfl, show 'A'.toNat = 65 from rfl,
    show 'F'.toNat = 70 from rfl]
  grind

end

/-! ### Words -/

/-- What is to be decided of a text is decided of its characters, one after the other. -/
theorem forall_mem_of_all {P : Char → Prop} [DecidablePred P] {text : List Char}
    (h : (text.all fun c => P c) = true) : ∀ c ∈ text, P c := by
  intro c hc
  exact of_decide_eq_true (List.all_eq_true.mp h c hc)

namespace Source.SameLetters

variable {written letters : List Char}

/-- Writing letters in another case adds none and drops none. -/
theorem length_eq (h : SameLetters written letters) : written.length = letters.length := by
  have hlen := congrArg List.length h
  rwa [List.length_map, List.length_map] at hlen

/-- A word that starts with a letter is written starting with that letter. -/
theorem exists_cons {d : Char} (h : SameLetters written (d :: letters)) :
    ∃ c rest, written = c :: rest ∧ c.toLower = d.toLower ∧ SameLetters rest letters := by
  cases written with
  | nil => cases h
  | cons c rest =>
    obtain ⟨hc, hrest⟩ := List.cons.inj h
    exact ⟨c, rest, rfl, hc, hrest⟩

/-- A word in two parts is written in two parts. -/
theorem exists_append {first second : List Char}
    (h : SameLetters written (first ++ second)) :
    ∃ a b, written = a ++ b ∧ SameLetters a first ∧ SameLetters b second := by
  rw [SameLetters, List.map_append] at h
  obtain ⟨a, b, rfl, ha, hb⟩ := List.map_eq_append_iff.mp h
  exact ⟨a, b, rfl, ha, hb⟩

/-- What is true of the pairs of letters is seen by induction on the word. -/
theorem forall₂ (h : SameLetters written letters) :
    List.Forall₂ (fun c d => c.toLower = d.toLower) written letters := by
  induction letters generalizing written with
  | nil =>
    obtain rfl := List.map_eq_nil_iff.mp h
    exact .nil
  | cons d letters ih =>
    obtain ⟨c, rest, rfl, hc, hrest⟩ := h.exists_cons
    exact .cons hc (ih hrest)

/-- Where the order of the letters does not matter, one letter is enough to look at. -/
theorem exists_of_mem (h : SameLetters written letters) {c : Char} (hc : c ∈ written) :
    ∃ d ∈ letters, c.toLower = d.toLower := by
  have hlower : c.toLower ∈ letters.map Char.toLower := h ▸ List.mem_map_of_mem hc
  obtain ⟨d, hd, hdc⟩ := List.mem_map.mp hlower
  exact ⟨d, hd, hdc.symm⟩

/-- Letters of ASCII are written in ASCII. -/
theorem isAscii (h : SameLetters written letters) (hd : ∀ d ∈ letters, d.toNat < 128) :
    ∀ c ∈ written, c.toNat < 128 := by
  intro c hc
  obtain ⟨d, hmem, hcd⟩ := h.exists_of_mem hc
  have hlow := hd d hmem
  have hnat := toNat_of_toLower_eq hcd
  omega

/-- In capitals there is no difference. -/
theorem capitals_eq (h : SameLetters written letters) (hd : ∀ d ∈ letters, d.toNat < 128) :
    Text.capitals written = letters.map Char.toUpper := by
  have hascii := h.isAscii hd
  have hpairs := h.forall₂
  clear h hd
  induction hpairs with
  | nil => rfl
  | @cons c d written letters hcd _ ih =>
    -- In ASCII one character has one capital, so the capitals stay as many as the letters.
    have hc : Text.capital c = [c.toUpper] := if_pos (hascii c List.mem_cons_self)
    rw [Text.capitals_cons, hc, toUpper_eq_of_toLower_eq hcd,
      ih fun e he => hascii e (List.mem_cons_of_mem c he)]
    rfl

/-- Decimal digits are written in one way. -/
theorem eq_of_isDigit (h : SameLetters written letters)
    (hd : ∀ d ∈ letters, d.isDigit = true) : written = letters := by
  have hpairs := h.forall₂
  clear h
  induction hpairs with
  | nil => rfl
  | @cons c d written letters hcd _ ih =>
    have hdigit := Text.isDigit_iff.mp (hd d List.mem_cons_self)
    rw [eq_of_toLower_eq hcd (by omega), ih fun e he => hd e (List.mem_cons_of_mem d he)]

/-- Hexadecimal digits are written as digits of the same values. -/
theorem digitValues_eq (h : SameLetters written letters)
    (hd : ∀ d ∈ letters, (Text.hexDigit? d).isSome = true) :
    (∀ c ∈ written, (Text.hexDigit? c).isSome = true) ∧
      written.map Text.digitValue = letters.map Text.digitValue := by
  refine ⟨fun c hc => ?_, ?_⟩
  · obtain ⟨d, hmem, hcd⟩ := h.exists_of_mem hc
    rw [hexDigit?_eq_of_toLower_eq hcd]
    exact hd d hmem
  · have hpairs := h.forall₂
    clear h hd
    induction hpairs with
    | nil => rfl
    | @cons c d written letters hcd _ ih =>
      rw [List.map_cons, List.map_cons, ih, Text.digitValue, hexDigit?_eq_of_toLower_eq hcd]
      rfl

end Source.SameLetters

/-! ### Digits that were written -/

namespace Text

/-- A digit that is written for a value has that value. -/
theorem digitValue_digitChar {d : Nat} (h : d < 16) :
    (hexDigit? (Nat.digitChar d)).isSome = true ∧ digitValue (Nat.digitChar d) = d := by
  have hall : ∀ d < 16, (hexDigit? (Nat.digitChar d)).isSome = true ∧
      digitValue (Nat.digitChar d) = d := by decide
  exact hall d h

/-- The digits of a number, in any base with digits for it, read as the number. -/
theorem ofDigits_toDigits {base : Nat} (h1 : 1 < base) (h2 : base ≤ 16) (n : Nat) :
    (∀ c ∈ Nat.toDigits base n, (hexDigit? c).isSome = true) ∧
      ofDigits base ((Nat.toDigits base n).map digitValue) = n := by
  induction n using Nat.strongRecOn with
  | ind n ih =>
    rw [Nat.toDigits_eq_if h1]
    by_cases hn : n < base
    · rw [if_pos hn]
      obtain ⟨hdigit, hvalue⟩ := digitValue_digitChar (d := n) (by omega)
      refine ⟨fun c hc => ?_, ?_⟩
      · rw [List.mem_singleton.mp hc]
        exact hdigit
      · show 0 * base + digitValue (Nat.digitChar n) = n
        rw [hvalue, Nat.zero_mul, Nat.zero_add]
    · -- The last digit is written behind those of the rest, and read with the lowest weight.
      rw [if_neg hn]
      have hmod : n % base < base := Nat.mod_lt n (by omega)
      obtain ⟨hdigit, hvalue⟩ := digitValue_digitChar (d := n % base) (by omega)
      obtain ⟨hrest, hsum⟩ := ih (n / base) (Nat.div_lt_self (by omega) h1)
      refine ⟨fun c hc => ?_, ?_⟩
      · rcases List.mem_append.mp hc with hc | hc
        · exact hrest c hc
        · rw [List.mem_singleton.mp hc]
          exact hdigit
      · rw [List.map_append, List.map_singleton, ofDigits_append_singleton, hsum, hvalue,
          Nat.mul_comm]
        exact Nat.div_add_mod n base

/-- The decimal digits of a number are read as the number. -/
theorem digits_decimal (n : Nat) :
    (∀ c ∈ (decimal n).toList, c.isDigit = true) ∧ (decimal n).toList ≠ [] ∧
      ofDigits 10 ((decimal n).toList.map digitValue) = n := by
  have htext : (decimal n).toList = Nat.toDigits 10 n := String.toList_ofList
  rw [htext]
  refine ⟨fun c hc => ?_, Nat.toDigits_ne_nil, ?_⟩
  · exact Nat.isDigit_of_mem_toDigits (by decide) (by decide) hc
  · exact (ofDigits_toDigits (by decide) (by decide) n).2

/-- They are as few as the size of the number allows. -/
theorem length_decimal_le_iff {n k : Nat} (hk : 0 < k) :
    (decimal n).toList.length ≤ k ↔ n < Nat.pow 10 k := by
  have htext : (decimal n).toList = Nat.toDigits 10 n := String.toList_ofList
  rw [htext]
  exact Nat.length_toDigits_le_iff (by decide) hk

/-- A byte takes two hexadecimal digits. -/
theorem length_byteHex (data : List UInt8) : (data.flatMap byteHex).length = 2 * data.length := by
  rw [List.length_flatMap]
  simp [byteHex, Nat.mul_comm]

/-- The digit pairs of bytes read as the number that the bytes stand for. -/
theorem ofDigits_byteHex (data : List UInt8) :
    (∀ c ∈ data.flatMap byteHex, (hexDigit? c).isSome = true) ∧
      ofDigits 16 ((data.flatMap byteHex).map digitValue) = Immediate.toNat data := by
  induction data with
  | nil =>
    refine ⟨fun c hc => ?_, rfl⟩
    cases hc
  | cons b data ih =>
    obtain ⟨hrest, hvalue⟩ := ih
    have hb : b.toNat < 256 := b.toNat_lt
    obtain ⟨hhigh, hhighValue⟩ := digitValue_digitChar (d := b.toNat / 16 % 16) (by omega)
    obtain ⟨hlow, hlowValue⟩ := digitValue_digitChar (d := b.toNat % 16) (by omega)
    refine ⟨fun c hc => ?_, ?_⟩
    · rcases List.mem_append.mp hc with hc | hc
      · rcases List.mem_cons.mp hc with rfl | hc
        · exact hhigh
        · rw [List.mem_singleton.mp hc]
          exact hlow
      · exact hrest c hc
    · -- The first pair stands before two digits for each byte that follows.
      show ofDigits 16 (digitValue (hexDigit (b.toNat / 16)) :: digitValue (hexDigit b.toNat) ::
        (data.flatMap byteHex).map digitValue) = _
      rw [ofDigits_cons, ofDigits_cons, hvalue, hexDigit, hexDigit, hhighValue, hlowValue,
        Immediate.toNat_cons, List.length_cons, List.length_map, length_byteHex, Nat.pow_succ,
        Nat.pow_mul, Nat.mod_eq_of_lt (by omega : b.toNat / 16 < 16)]
      have hsplit : b.toNat / 16 * 16 + b.toNat % 16 = b.toNat := by omega
      calc b.toNat / 16 * ((16 ^ 2) ^ data.length * 16) +
            (b.toNat % 16 * (16 ^ 2) ^ data.length + Immediate.toNat data)
          = (b.toNat / 16 * 16 + b.toNat % 16) * (16 ^ 2) ^ data.length +
            Immediate.toNat data := by ring
        _ = b.toNat * 256 ^ data.length + Immediate.toNat data := by
          rw [hsplit, show 16 ^ 2 = 256 from rfl]

end Text

end EvmAssembler
