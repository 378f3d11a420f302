import EvmAssembler.Immediate
import EvmAssembler.Proofs.Encoding
import EvmAssembler.Text.Numeral
import Mathlib.Data.List.Induction
import Mathlib.Tactic.Ring

/-!
# `EvmAssembler.Proofs.Immediate`: numbers and their bytes

`Immediate.bytes` writes a number from its last byte on, `Immediate.toNat` reads bytes from
the first one on, and `Text.ofDigits` reads the digits of a literal in the same order. The
lemmas bring them together:

* `toNat_bytes` and `bytes_toNat`: writing and reading undo each other, as long as the number
  fits.
* `toNat_cons` and `Text.ofDigits_cons`: the first byte or digit carries the highest weight,
  which is what a proof by recursion on the text needs.
* `width_le_iff`: the least width is at most `w` exactly when the number fits in `w` bytes.
* `pushInt_none` and `pushInt_some`: what `Instruction.pushInt` answers for every natural
  number, with a width and without.
-/

set_option autoImplicit false

namespace EvmAssembler

/-! ### Digits in a base -/

namespace Text

/-- One more digit behind the others. -/
theorem ofDigits_append_singleton (base : Nat) (ds : List Nat) (d : Nat) :
    ofDigits base (ds ++ [d]) = ofDigits base ds * base + d := by
  rw [ofDigits, List.foldl_append]
  rfl

/-- The first digit carries the highest weight. -/
theorem ofDigits_cons (base d : Nat) (ds : List Nat) :
    ofDigits base (d :: ds) = d * base ^ ds.length + ofDigits base ds := by
  induction ds using List.reverseRecOn with
  | nil => simp [ofDigits]
  | append_singleton ds e ih =>
    rw [← List.cons_append, ofDigits_append_singleton, ih, ofDigits_append_singleton,
      List.length_append, List.length_singleton, pow_succ]
    ring

/-- Zeros in front change nothing. -/
theorem ofDigits_replicate_append (base zeros : Nat) (ds : List Nat) :
    ofDigits base (List.replicate zeros 0 ++ ds) = ofDigits base ds := by
  induction zeros with
  | zero => rfl
  | succ zeros ih =>
    rw [List.replicate_succ, List.cons_append, ofDigits_cons, ih, Nat.zero_mul, Nat.zero_add]

/-- Digits below the base make a number below its power. -/
theorem ofDigits_lt {base : Nat} {ds : List Nat} (h : ∀ d ∈ ds, d < base) :
    ofDigits base ds < base ^ ds.length := by
  induction ds with
  | nil => exact Nat.one_pos
  | cons d ds ih =>
    have hd : d + 1 ≤ base := h d List.mem_cons_self
    have hds := ih fun e he => h e (List.mem_cons_of_mem _ he)
    rw [ofDigits_cons, List.length_cons, pow_succ]
    calc d * base ^ ds.length + ofDigits base ds
        < (d + 1) * base ^ ds.length := by rw [Nat.add_mul, Nat.one_mul]; omega
      _ ≤ base * base ^ ds.length := Nat.mul_le_mul_right _ hd
      _ = base ^ ds.length * base := Nat.mul_comm _ _

end Text

namespace Immediate

/-! ### Writing and reading -/

/-- Bytes are the digits of a number in base 256. -/
theorem toNat_eq_ofDigits (data : List UInt8) :
    toNat data = Text.ofDigits 256 (data.map UInt8.toNat) := by
  rw [toNat, Text.ofDigits, List.foldl_map]

/-- The first byte carries the highest weight. -/
theorem toNat_cons (b : UInt8) (data : List UInt8) :
    toNat (b :: data) = b.toNat * 256 ^ data.length + toNat data := by
  rw [toNat_eq_ofDigits, List.map_cons, Text.ofDigits_cons, List.length_map, ← toNat_eq_ofDigits]

/-- The last byte carries the lowest weight. -/
theorem toNat_append_singleton (data : List UInt8) (b : UInt8) :
    toNat (data ++ [b]) = toNat data * 256 + b.toNat := by
  rw [toNat, List.foldl_append]
  rfl

/-- As many bytes as there are can hold the number they stand for. -/
theorem toNat_lt (data : List UInt8) : toNat data < 256 ^ data.length := by
  have h := @Text.ofDigits_lt 256 (data.map UInt8.toNat) fun d hd => by
    obtain ⟨b, -, rfl⟩ := List.mem_map.mp hd
    exact b.toNat_lt
  rwa [List.length_map, ← toNat_eq_ofDigits] at h

/-- A number that fits is read back as it was written. -/
theorem toNat_bytes {w n : Nat} (h : n < 256 ^ w) : toNat (bytes w n) = n := by
  induction w generalizing n with
  | zero =>
    rw [pow_zero] at h
    rw [bytes, show n = 0 by omega]
    rfl
  | succ w ih =>
    have hrest : n / 256 < 256 ^ w := by
      rw [pow_succ] at h
      exact Nat.div_lt_of_lt_mul (by rwa [Nat.mul_comm])
    have hlast : (UInt8.ofNat (n % 256)).toNat = n % 256 :=
      UInt8.toNat_ofNat_of_lt' (Nat.mod_lt _ (by decide))
    rw [bytes, toNat_append_singleton, ih hrest, hlast]
    omega

/-- Bytes are written again as they were read. -/
theorem bytes_toNat (data : List UInt8) : bytes data.length (toNat data) = data := by
  induction data using List.reverseRecOn with
  | nil => rfl
  | append_singleton data b ih =>
    have hb : b.toNat < 256 := b.toNat_lt
    rw [List.length_append, List.length_singleton, bytes, toNat_append_singleton,
      show (toNat data * 256 + b.toNat) / 256 = toNat data by omega,
      show (toNat data * 256 + b.toNat) % 256 = b.toNat by omega, ih, UInt8.ofNat_toNat]

/-! ### Widths -/

/-- A width is never zero. -/
theorem one_le_width (n : Nat) : 1 ≤ width n := by
  rw [width]
  split <;> omega

/-- The least width is at most `w`, if `w` is a width at all, exactly when the number fits. -/
theorem width_le_iff {n w : Nat} (hw : 1 ≤ w) : width n ≤ w ↔ n < 256 ^ w := by
  fun_induction width n generalizing w with
  | case1 n hn =>
    refine ⟨fun _ => ?_, fun _ => hw⟩
    exact Nat.lt_of_lt_of_le hn (Nat.le_self_pow (by omega) 256)
  | case2 n hn ih =>
    -- One byte less is asked of the number without its last byte.
    cases w with
    | zero => omega
    | succ w =>
      rw [Nat.add_le_add_iff_right, Nat.pow_succ]
      cases w with
      | zero =>
        -- One byte is too little here, and the width of the rest is at least one.
        have := one_le_width (n / 256)
        constructor
        · intro h
          omega
        · intro h
          rw [Nat.pow_zero] at h
          omega
      | succ w =>
        rw [ih (by omega)]
        exact Nat.div_lt_iff_lt_mul (by decide)

/-- Every number fits in its own width. -/
theorem lt_pow_width (n : Nat) : n < 256 ^ width n :=
  (width_le_iff (one_le_width n)).mp (Nat.le_refl _)

end Immediate

namespace Instruction

/-! ### Pushes of natural numbers -/

/-- Widths from 1 to 32 have a push opcode, and no others. -/
theorem pushCode_int (w : Int) :
    pushCode (.int w) =
      if 1 ≤ w ∧ w ≤ maxPushBytes then .ok (pushBase + UInt8.ofNat w.toNat)
      else refuse (.pushLength (.int w)) := by
  rw [pushCode]
  by_cases hw : 1 ≤ w ∧ w ≤ maxPushBytes
  · obtain ⟨n, rfl⟩ := Int.eq_ofNat_of_zero_le (show 0 ≤ w by omega)
    rw [if_pos hw]
    exact rangeCode_int (by omega) (by omega)
  · rw [if_neg hw]
    exact rangeCode_eq_refuse (indexWithin?_int_eq_none hw)

/-- Pushing a number in a given width: the width is checked before the number. -/
theorem pushInt_some (n w : Nat) :
    pushInt n (some w) =
      if 1 ≤ w ∧ w ≤ maxPushBytes then
        if n < 256 ^ w then .ok (.push (Immediate.bytes w n)) else refuse (.pushOverflow n w)
      else refuse (.pushLength (.int w)) := by
  rw [pushInt, if_neg (by omega)]
  dsimp only [Option.getD_some]
  rw [pushCode_int, Int.toNat_natCast, Int.toNat_natCast]
  by_cases hw : 1 ≤ w ∧ w ≤ maxPushBytes
  · rw [if_pos hw, if_pos (by omega)]
    rfl
  · rw [if_neg hw, if_neg (by omega)]
    rfl

/-- Pushing a number in its own width: it fails only where 32 bytes are too few. -/
theorem pushInt_none (n : Nat) :
    pushInt n none =
      if n < 256 ^ maxPushBytes then .ok (.push (Immediate.bytes (Immediate.width n) n))
      else refuse (.pushLength (.int (Immediate.width n))) := by
  have h : pushInt n none = pushInt n (some (Immediate.width n : Nat)) := rfl
  have hwidth := Immediate.one_le_width n
  have hfits : Immediate.width n ≤ maxPushBytes ↔ n < 256 ^ maxPushBytes :=
    Immediate.width_le_iff (by decide)
  rw [h, pushInt_some, if_pos (Immediate.lt_pow_width n)]
  simp only [hwidth, true_and, hfits]

end Instruction

end EvmAssembler
