import EvmAssembler.Program.Jumps
import EvmAssembler.Proofs.Immediate

/-!
# `EvmAssembler.Proofs.Immediate.PushInt`: which integers can be pushed, and how

`Instruction.pushInt` checks the sign of an integer, then the width, then whether the one fits in
the other, and the width may have been computed just before. `Immediate.Fits` and
`Immediate.Exact` say what comes of it without the order of the checks: the numbers that a width
admits, and the immediates that stand for a number in it.

* `head?_bytes_width`: in its least width a number starts with a byte that is not zero.
* `pushInt_of_fits` and `pushInt_of_not_fits`: the two outcomes for a natural number.
* `pushInt_outcome`: all outcomes. Every refusal has to show the number or the width, and one that
  is past the decimal limit cannot be shown.
-/

set_option autoImplicit false

namespace EvmAssembler

namespace Immediate

/-- The numbers that can be pushed in the width asked for. Where none is asked for, they may take as
many bytes as a push can have. -/
def Fits (n : Nat) : Option Int → Prop
  | none => n < 2 ^ 256
  | some w => 1 ≤ w ∧ w ≤ 32 ∧ n < 256 ^ w.toNat

/-- The bytes that stand for a number in the width asked for. Where none is asked for, there is at
least one byte and no shorter choice, so that no number but zero starts with a zero. -/
structure Exact (n : Nat) (w : Option Int) (data : List UInt8) : Prop where
  value : toNat data = n
  width : ∀ k ∈ w, (data.length : Int) = k
  least : w = none → 1 ≤ data.length ∧ ∀ k, 1 ≤ k → n < 256 ^ k → data.length ≤ k
  front : w = none → n ≠ 0 → data.head? ≠ some 0

/-- In its least width a number has no zero in front. -/
theorem head?_bytes_width {n : Nat} (hn : n ≠ 0) : (bytes (width n) n).head? ≠ some 0 := by
  intro hzero
  obtain ⟨rest, hbytes⟩ : ∃ rest, bytes (width n) n = 0 :: rest := List.head?_eq_some_iff.mp hzero
  have hlength : rest.length + 1 = width n := by
    rw [← length_bytes (width n) n, hbytes, List.length_cons]
  -- Without the zero the rest would hold the number, in fewer bytes than it needs.
  have hvalue : toNat rest = n := by
    rw [← toNat_bytes (lt_pow_width n), hbytes, toNat_cons, UInt8.toNat_zero, Nat.zero_mul,
      Nat.zero_add]
  have hlt : n < 256 ^ rest.length := by
    rw [← hvalue]
    exact toNat_lt rest
  cases rest with
  | nil => exact hn (Nat.lt_one_iff.mp hlt)
  | cons b rest =>
    have hle := (width_le_iff (Nat.succ_pos rest.length)).mpr hlt
    rw [List.length_cons] at hlength
    omega

/-- A number takes no more bytes than it counts. -/
theorem width_le_self {n : Nat} (hn : n ≠ 0) : width n ≤ n :=
  (width_le_iff (Nat.one_le_iff_ne_zero.mpr hn)).mpr (Nat.lt_pow_self (by decide))

end Immediate

namespace Instruction

open Immediate (Fits Exact)

/-- A number that fits is pushed. -/
theorem pushInt_of_fits {n : Nat} {w : Option Int} (h : Fits n w) :
    ∃ data, pushInt n w = .ok (.push data) ∧ (push data).Encodable ∧ Exact n w data := by
  have hencodable : ∀ k, 1 ≤ k → k ≤ maxPushBytes → (push (Immediate.bytes k n)).Encodable := by
    intro k h1 h2
    exact ⟨_, (Encodes.push (by rwa [Immediate.length_bytes])
      (by rwa [Immediate.length_bytes])).encode⟩
  cases w with
  | none =>
    have hfits : n < 256 ^ maxPushBytes := h
    -- Without a width the least is taken, and that is one that a push has.
    have hone := Immediate.one_le_width n
    refine ⟨Immediate.bytes (Immediate.width n) n, by rw [pushInt_none, if_pos hfits],
      hencodable _ hone ((Immediate.width_le_iff (by decide)).mpr hfits), ?_⟩
    refine ⟨Immediate.toNat_bytes (Immediate.lt_pow_width n), by simp, fun _ => ?_,
      fun _ => Immediate.head?_bytes_width⟩
    rw [Immediate.length_bytes]
    exact ⟨hone, fun k hk => (Immediate.width_le_iff hk).mpr⟩
  | some w =>
    obtain ⟨h1, h2, hfits⟩ := h
    obtain ⟨k, rfl⟩ := Int.eq_ofNat_of_zero_le (show 0 ≤ w by omega)
    have hmost : k ≤ maxPushBytes := Int.ofNat_le.mp h2
    rw [Int.toNat_natCast] at hfits
    refine ⟨Immediate.bytes k n, ?_, hencodable k (by omega) hmost,
      Immediate.toNat_bytes hfits, ?_, nofun, nofun⟩
    · rw [pushInt_some, if_pos ⟨by omega, hmost⟩, if_pos hfits]
    · rintro _ ⟨⟩
      rw [Immediate.length_bytes]

/-- A number that does not fit is refused, for the width if no push has it, and otherwise for the
number. -/
theorem pushInt_of_not_fits {n : Nat} {w : Option Int} (h : ¬Fits n w) :
    pushInt n w = refuse (.pushLength (.int (w.getD (Immediate.width n)))) ∨
      ∃ k : Nat, w = some (k : Int) ∧ k ≤ 32 ∧ pushInt n w = refuse (.pushOverflow n k) := by
  cases w with
  | none =>
    have hfits : ¬n < 256 ^ maxPushBytes := h
    rw [pushInt_none, if_neg hfits]
    exact Or.inl rfl
  | some w =>
    by_cases hw : 1 ≤ w ∧ w ≤ 32
    · obtain ⟨k, rfl⟩ := Int.eq_ofNat_of_zero_le (show 0 ≤ w by omega)
      have hmost : k ≤ maxPushBytes := Int.ofNat_le.mp hw.2
      have hbig : ¬n < 256 ^ k := fun hlt => h ⟨hw.1, hw.2, by rwa [Int.toNat_natCast]⟩
      rw [pushInt_some, if_pos ⟨by omega, hmost⟩, if_neg hbig]
      exact Or.inr ⟨k, rfl, hmost, rfl⟩
    · have hcode : pushCode (.int w) = refuse (.pushLength (.int w)) := by
        rw [pushCode_int]
        exact if_neg hw
      rw [pushInt, if_neg (by omega)]
      dsimp only [Option.getD_some]
      rw [hcode]
      exact Or.inl rfl

/-- A refusal is raised as it is if it can be shown, and otherwise the limit on digits is. -/
theorem exists_of_refuse {α : Type} (e : Error) :
    ∃ d, (refuse e : Except Error α) = .error d ∧
      (e.isShowable = true ∧ d = e ∨ e.isShowable = false ∧ d = .tooManyDigits) := by
  refine ⟨_, rfl, ?_⟩
  cases h : e.isShowable with
  | true => exact Or.inl ⟨rfl, rfl⟩
  | false => exact Or.inr ⟨rfl, rfl⟩

/-- A number that can be shown and does not fit is refused for its length, unless the width cannot
be shown. -/
theorem exists_refusal_of_not_fits {n : Nat} {w : Option Int} (hn : Text.hasDecimal n = true)
    (h : ¬Fits n w) :
    ∃ e, pushInt n w = .error e ∧
      ((∀ k ∈ w, Text.hasDecimal k = true) ∧ e.kind = .invalidImmediateLength ∨
        (∃ k ∈ w, Text.hasDecimal k = false) ∧ e = .tooManyDigits) := by
  rcases pushInt_of_not_fits h with hlength | ⟨k, rfl, hk, hoverflow⟩
  · obtain ⟨e, he, hraised⟩ := @exists_of_refuse Instruction
      (.pushLength (.int (w.getD (Immediate.width n))))
    refine ⟨e, hlength.trans he, ?_⟩
    cases w with
    | none =>
      -- The width that was computed is no longer than the number itself, which can be shown.
      have hshow : Text.hasDecimal (Immediate.width n) = true := by
        have hne : n ≠ 0 := by
          rintro rfl
          exact h (Nat.two_pow_pos 256)
        have hlt : n < Text.decimalLimit := of_decide_eq_true hn
        exact decide_eq_true (Nat.lt_of_le_of_lt (Immediate.width_le_self hne) hlt)
      rcases hraised with ⟨-, rfl⟩ | ⟨hhidden, -⟩
      · exact Or.inl ⟨nofun, rfl⟩
      · rw [show Text.hasDecimal (Immediate.width n) = false from hhidden] at hshow
        cases hshow
    | some w =>
      rcases hraised with ⟨hshow, rfl⟩ | ⟨hhidden, rfl⟩
      · refine Or.inl ⟨?_, rfl⟩
        rintro _ ⟨⟩
        exact hshow
      · exact Or.inr ⟨⟨w, rfl, hhidden⟩, rfl⟩
  · obtain ⟨e, he, ⟨-, rfl⟩ | ⟨hhidden, -⟩⟩ := @exists_of_refuse Instruction (.pushOverflow n k)
    · refine ⟨_, hoverflow.trans he, Or.inl ⟨?_, rfl⟩⟩
      rintro _ ⟨⟩
      refine @Text.hasDecimal_of_natAbs_lt k 2 (by decide) ?_
      exact Nat.lt_of_le_of_lt hk (by decide)
    · rw [show Text.hasDecimal n = false from hhidden] at hn
      cases hn

/-- All that pushing an integer can come to. A natural number is pushed exactly if it fits, and then
in a push that encodes and holds it exactly. A number that does not fit is refused for its length,
and a negative one as a parameter, unless the refusal would have to show an integer past the decimal
limit: the width in the one case, the number in the other. -/
theorem pushInt_outcome {v : Int} (w : Option Int) (hv : 0 ≤ v → Text.hasDecimal v = true) :
    (0 ≤ v →
      ((∃ i, pushInt v w = .ok i) ↔ Fits v.toNat w) ∧
      (∀ i, pushInt v w = .ok i → i.Encodable ∧ i.pushed? = some v.toNat ∧
        ∃ data, i = .push data ∧ Exact v.toNat w data) ∧
      (¬Fits v.toNat w → ∃ e, pushInt v w = .error e ∧
        ((∀ k ∈ w, Text.hasDecimal k = true) ∧ e.kind = .invalidImmediateLength ∨
          (∃ k ∈ w, Text.hasDecimal k = false) ∧ e = .tooManyDigits))) ∧
      (v < 0 → ∃ e, pushInt v w = .error e ∧
        (Text.hasDecimal v = true ∧ e.kind = .invalidParameter ∨
          Text.hasDecimal v = false ∧ e = .tooManyDigits)) := by
  refine ⟨fun hpos => ?_, fun hneg => ?_⟩
  · have hshow := hv hpos
    obtain ⟨n, rfl⟩ := Int.eq_ofNat_of_zero_le hpos
    rw [Int.toNat_natCast]
    have hfits : ∀ i, pushInt n w = .ok i → Fits n w := by
      intro i hi
      by_contra hnot
      obtain ⟨e, he, -⟩ := exists_refusal_of_not_fits hshow hnot
      rw [he] at hi
      cases hi
    refine ⟨⟨fun ⟨i, hi⟩ => hfits i hi, fun h => ?_⟩, fun i hi => ?_,
      exists_refusal_of_not_fits hshow⟩
    · obtain ⟨data, hdata, -⟩ := pushInt_of_fits h
      exact ⟨_, hdata⟩
    · obtain ⟨data, hdata, hencodable, hexact⟩ := pushInt_of_fits (hfits i hi)
      obtain rfl := Except.ok.inj (hdata.symm.trans hi)
      exact ⟨hencodable, congrArg some hexact.value, data, rfl, hexact⟩
  · have hrefused : pushInt v w = refuse (.negativePush (.int v)) := if_pos hneg
    obtain ⟨e, he, ⟨hshow, rfl⟩ | ⟨hhidden, rfl⟩⟩ :=
      @exists_of_refuse Instruction (.negativePush (.int v))
    · exact ⟨_, hrefused.trans he, Or.inl ⟨hshow, rfl⟩⟩
    · exact ⟨_, hrefused.trans he, Or.inr ⟨hhidden, rfl⟩⟩

/-- At 256 the least width grows to two bytes, one byte is too little, and a width of 4301 digits is
refused for its digits. -/
theorem pushInt_outcome_overlong :
    (0 ≤ (256 : Int) → Text.hasDecimal 256 = true) ∧
      pushInt 256 none = .ok (.push [0x01, 0x00]) ∧ Exact 256 none [0x01, 0x00] ∧
      (∃ e, pushInt 256 (some 1) = .error e ∧ e.kind = .invalidImmediateLength) ∧
      pushInt 256 (some Text.decimalLimit) = .error .tooManyDigits := by
  have hpos : 0 ≤ (256 : Int) := by decide
  have hshow : 0 ≤ (256 : Int) → Text.hasDecimal 256 = true :=
    fun _ => @Text.hasDecimal_of_natAbs_lt 256 3 (by decide) (by decide)
  have hwidth : Immediate.width 256 = 2 := by
    rw [Immediate.width, if_neg (by decide), Immediate.width, if_pos (by decide)]
  have hpushed : pushInt 256 none = .ok (.push [0x01, 0x00]) := by
    refine (pushInt_none 256).trans ?_
    rw [if_pos (by decide), hwidth]
    rfl
  obtain ⟨-, hleast, -⟩ := (pushInt_outcome none hshow).1 hpos
  obtain ⟨-, -, hone⟩ := (pushInt_outcome (some 1) hshow).1 hpos
  obtain ⟨-, -, hlong⟩ := (pushInt_outcome (some Text.decimalLimit) hshow).1 hpos
  refine ⟨hshow, hpushed, ?_, ?_, ?_⟩
  · obtain ⟨-, -, data, hdata, hexact⟩ := hleast _ hpushed
    obtain rfl := Instruction.push.inj hdata
    exact hexact
  · have hsmall : Text.hasDecimal 1 = true :=
      @Text.hasDecimal_of_natAbs_lt 1 1 (by decide) (by decide)
    obtain ⟨e, he, ⟨-, hkind⟩ | ⟨⟨k, ⟨⟩, hhidden⟩, -⟩⟩ := hone (by unfold Immediate.Fits; decide)
    · exact ⟨e, he, hkind⟩
    · rw [hsmall] at hhidden
      cases hhidden
  · have hlimit : 10 ^ 2 ≤ Text.decimalLimit := Text.pow_le_decimalLimit (by decide)
    have hbig : Text.hasDecimal Text.decimalLimit = false := by
      rw [Text.hasDecimal, Int.natAbs_natCast]
      exact decide_eq_false (Nat.lt_irrefl Text.decimalLimit)
    have hnot : ¬Fits 256 (some Text.decimalLimit) := by
      rintro ⟨-, hmost, -⟩
      omega
    obtain ⟨e, he, ⟨hshown, -⟩ | ⟨-, rfl⟩⟩ := hlong hnot
    · rw [hshown _ rfl] at hbig
      cases hbig
    · exact he

end Instruction

end EvmAssembler
