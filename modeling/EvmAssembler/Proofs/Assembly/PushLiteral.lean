import EvmAssembler.Proofs.Assembly.FirstPass
import EvmAssembler.Proofs.Assembly.Laid
import EvmAssembler.Proofs.Text.Letters

/-!
# `EvmAssembler.Proofs.Assembly.PushLiteral`: two ways to push a hexadecimal literal

A hexadecimal literal can be pushed as it is written, its digits taken in pairs, or as a number in a
width that the keyword gives. The first keeps leading zeros because it never leaves the text, the
second because the width pads the number.

* `literalPush_some_literalBytes`: in the width that the digits fill, the two are the same push.
* `issuePush_append_decimal`: what is too long is refused in the same words, although once the
  encoder refuses it and once the check on the width.
* `Call.run_push_literal`: so neither the program nor the error tells them apart.
-/

set_option autoImplicit false

namespace EvmAssembler

namespace Text

/-- The value of a hexadecimal literal fits in the bytes that its digits fill. -/
theorem literalValue_lt {text : List Char} (hmarked : isHexMarked text = true) :
    literalValue text < 256 ^ literalBytes text := by
  have hdigits := @ofDigits_lt 16 ((literalDigits text).map digitValue) fun d hd => by
    obtain ⟨c, -, rfl⟩ := List.mem_map.mp hd
    exact digitValue_lt c
  rw [List.length_map] at hdigits
  rw [literalValue, if_pos hmarked, literalBytes]
  refine Nat.lt_of_lt_of_le hdigits ?_
  calc 16 ^ (literalDigits text).length
      ≤ 16 ^ (2 * (((literalDigits text).length + 1) / 2)) :=
        Nat.pow_le_pow_right (by decide) (by omega)
    _ = 256 ^ (((literalDigits text).length + 1) / 2) := Nat.pow_mul 16 2 _

end Text

namespace Layout

open Source (PushOperand)

variable {word text : String}

/-- A keyword that ends behind its letters gives no width. -/
theorem keywordWidth_of_length (hword : word.toList.length = 4) : keywordWidth word = .ok none := by
  rw [keywordWidth, List.drop_of_length_le (Nat.le_of_eq hword)]

/-- The width behind the letters of a keyword is read, if it has a numeral within the limit. -/
theorem keywordWidth_append_decimal (hword : word.toList.length = 4) (n : Nat) :
    keywordWidth (word ++ Text.decimal n) =
      if Text.hasDecimal n then .ok (some n) else .error .tooManyDigits := by
  obtain ⟨hdigits, hne, hvalue⟩ := Text.digits_decimal n
  have hfew : (Text.decimal n).toList.length ≤ Text.maxDecimalDigits ↔
      Text.hasDecimal n = true := by
    rw [Text.hasDecimal, decide_eq_true_iff, Int.natAbs_natCast]
    unfold Text.decimalLimit
    exact Text.length_decimal_le_iff (by decide)
  have htext : (word ++ Text.decimal n).toList = word.toList ++ (Text.decimal n).toList :=
    String.toList_append
  have hdrop : (word ++ Text.decimal n).toList.drop 4 = (Text.decimal n).toList := by
    rw [htext, ← hword, List.drop_left]
  have hwidth : pushWidth? (word ++ Text.decimal n) = some n := by
    rw [pushWidth?, hdrop]
    split
    · rename_i hnil
      exact absurd hnil hne
    · rw [hvalue]
  rw [keywordWidth_eq ⟨word.toList, _, htext, hword, hdigits⟩, hdrop, hwidth]
  exact if_congr hfew rfl rfl

section
variable (h : Text.IsLiteral text.toList) (hmarked : Text.isHexMarked text.toList = true)
include h hmarked

/-- In the width that the digits fill, a hexadecimal literal is the same push as a number and as
it is written. -/
theorem literalPush_some_literalBytes (hN : Text.literalBytes text.toList ≤ maxPushBytes) :
    literalPush (some (Text.literalBytes text.toList : Nat)) text = literalPush none text := by
  have hinteger : ofReading (Text.readInteger text.toList) =
      .ok (Text.literalValue text.toList : Nat) := by
    rw [Text.readInteger_eq h, if_pos (Text.isReadable_of_isHexMarked hmarked)]
    rfl
  have hnumber : literalPush (some (Text.literalBytes text.toList : Nat)) text =
      .ok (.push (Immediate.bytes (Text.literalBytes text.toList)
        (Text.literalValue text.toList))) := by
    show ((ofReading (Text.readInteger text.toList)).bind fun n =>
      Instruction.pushInt n (some (Text.literalBytes text.toList : Nat))) = _
    rw [hinteger, except_bind_ok, Instruction.pushInt_some,
      if_pos ⟨one_le_literalBytes h hmarked, hN⟩, if_pos (Text.literalValue_lt hmarked)]
  rw [hnumber, literalPush, hmarked, Text.readHexBytes_eq h hmarked]
  rfl

/-- A hexadecimal literal is placed in the bytes that its digits fill, or refused for having too
many. -/
theorem issuePush_literal (l : Layout) (hword : word.toList.length = 4) :
    (Text.literalBytes text.toList ≤ maxPushBytes → ∃ next,
      l.issuePush word (.literal text) = .ok next ∧
        l.Places (.instruction (.push (Immediate.bytes (Text.literalBytes text.toList)
          (Text.literalValue text.toList)))) next) ∧
    (maxPushBytes < Text.literalBytes text.toList → l.issuePush word (.literal text) =
      refuse (.pushLength (.int (Text.literalBytes text.toList)))) := by
  have hpush : l.issuePush word (.literal text) = (literalPush none text).bind l.issue := by
    rw [issuePush, keywordWidth_of_length hword]
    rfl
  have hresponds := responds_literal l h (Text.isReadable_of_isHexMarked hmarked) none
  rw [literalRefusal?, Option.getD_none, literalWidth, if_pos hmarked] at hresponds
  rw [hpush]
  constructor
  · intro hN
    rw [if_pos hN] at hresponds
    exact hresponds.exists_places
  · intro hN
    rw [if_neg (Nat.not_le.mpr hN)] at hresponds
    exact hresponds.eq_error

/-- The width that the digits fill changes nothing, not even for a literal that is too long. -/
theorem issuePush_append_decimal (l : Layout) (hword : word.toList.length = 4) :
    l.issuePush (word ++ Text.decimal (Text.literalBytes text.toList)) (.literal text) =
      l.issuePush word (.literal text) := by
  obtain ⟨-, hrefused⟩ := issuePush_literal h hmarked l hword
  rw [issuePush, keywordWidth_append_decimal hword]
  by_cases hN : Text.literalBytes text.toList ≤ maxPushBytes
  · have hshow : Text.hasDecimal (Text.literalBytes text.toList) = true :=
      Text.hasDecimal_of_natAbs_lt (k := 2) (by decide) (by
        rw [Int.natAbs_natCast]
        exact Nat.lt_of_le_of_lt hN (by decide))
    rw [if_pos hshow, except_bind_ok, issuePush, keywordWidth_of_length hword, except_bind_ok]
    dsimp only
    rw [literalPush_some_literalBytes h hmarked hN]
  · rw [hrefused (Nat.lt_of_not_le hN)]
    by_cases hshow : Text.hasDecimal (Text.literalBytes text.toList) = true
    · -- The width is read, and then the check on it fails.
      have hresponds := responds_literal l h (Text.isReadable_of_isHexMarked hmarked)
        (some (Text.literalBytes text.toList))
      rw [literalRefusal?, if_neg fun hw => hN hw.2] at hresponds
      rw [if_pos hshow]
      exact hresponds.eq_error
    · -- A width that has no numeral cannot be shown either.
      have hmute : ¬Error.isShowable
          (.pushLength (.int (Text.literalBytes text.toList))) = true := hshow
      rw [if_neg hshow, refuse, if_neg hmute]
      rfl

end

end Layout

/-- Pushing a hexadecimal literal as it is written is pushing it in the width that its digits fill:
the two calls have the same outcome on every layout. Up to 32 bytes that outcome is a push of
exactly those bytes, which hold the value of the literal. Beyond that the push is refused for its
length and the layout left as it was. A length that itself has more than 4300 digits could not be
shown, so both calls would fail for that. -/
theorem Call.run_push_literal (l : Layout) {word text : String} (hword : word.toList.length = 4)
    (h : Text.IsLiteral text.toList) (hmarked : Text.isHexMarked text.toList = true) :
    (push [.text (word ++ Text.decimal (Text.literalBytes text.toList)), .text text]).perform.run l
        = (push [.text word, .text text]).perform.run l ∧
      (Text.literalBytes text.toList ≤ 32 → ∃ data next,
        (push [.text word, .text text]).perform.run l = .ok () next ∧
          l.Places (.instruction (.push data)) next ∧
          data.length = Text.literalBytes text.toList ∧
          Immediate.toNat data = Text.literalValue text.toList) ∧
      (32 < Text.literalBytes text.toList → ∃ e,
        (push [.text word, .text text]).perform.run l = .error e l ∧
          (Text.hasDecimal (Text.literalBytes text.toList) = true →
            e = .pushLength (.int (Text.literalBytes text.toList)) ∧
              e.kind = .invalidImmediateLength)) := by
  have hrun : ∀ keyword : String, (push [.text keyword, .text text]).perform.run l =
      l.answered (l.issuePush keyword (.literal text)) :=
    fun keyword => run_ofAction (.push keyword (.literal text)) l
  obtain ⟨hplaced, hrefused⟩ := Layout.issuePush_literal h hmarked l hword
  rw [hrun, hrun, Layout.issuePush_append_decimal h hmarked l hword]
  refine ⟨rfl, fun hN => ?_, fun hN => ?_⟩
  · obtain ⟨next, hnext, hplaces⟩ := hplaced hN
    rw [hnext]
    exact ⟨_, next, rfl, hplaces, Immediate.length_bytes _ _,
      Immediate.toNat_bytes (Text.literalValue_lt hmarked)⟩
  · rw [hrefused hN]
    refine ⟨_, rfl, fun hshow => ?_⟩
    have hshowable : Error.isShowable
        (.pushLength (.int (Text.literalBytes text.toList))) = true := hshow
    rw [if_pos hshowable]
    exact ⟨rfl, rfl⟩

/-- A mark and an odd number of zeros, one more than 32 bytes have room for. -/
def overlongZeros : String :=
  String.ofList ('0' :: 'x' :: List.replicate 65 '0')

/-- Two leading zeros and an odd number of digits make three bytes either way, and 65 zeros are too
many either way, although they are worth nothing. -/
theorem Call.run_push_literal_zeros :
    ((push [.text "push3", .text "0X00aBc"]).perform.run .empty =
        (push [.text "push", .text "0X00aBc"]).perform.run .empty ∧
      ∃ data next, (push [.text "push", .text "0X00aBc"]).perform.run .empty = .ok () next ∧
        Layout.empty.Places (.instruction (.push data)) next ∧
        data.length = 3 ∧ Immediate.toNat data = 0xABC) ∧
    ((push [.text "push33", .text overlongZeros]).perform.run .empty =
        (push [.text "push", .text overlongZeros]).perform.run .empty ∧
      (push [.text "push", .text overlongZeros]).perform.run .empty =
        .error (.pushLength (.int 33)) .empty) := by
  have hpadded : Text.IsLiteral ('0' :: 'X' :: ['0', '0', 'a', 'B', 'c']) :=
    .hex (Or.inr rfl) (by decide) (forall_mem_of_all (by decide))
  have hzeros : Text.IsLiteral overlongZeros.toList := by
    have htext : overlongZeros.toList = '0' :: 'x' :: List.replicate 65 '0' :=
      String.toList_ofList
    rw [htext]
    refine .hex (Or.inl rfl) (List.cons_ne_nil _ _) fun c hc => ?_
    rw [List.eq_of_mem_replicate hc]
    decide
  have hthree : Text.literalBytes "0X00aBc".toList = 3 := by decide
  have hmany : Text.literalBytes overlongZeros.toList = 33 := by decide
  obtain ⟨hsame, hplaced, -⟩ :=
    @run_push_literal .empty "push" "0X00aBc" (by decide) hpadded (by decide)
  obtain ⟨hboth, -, hrefused⟩ :=
    @run_push_literal .empty "push" overlongZeros (by decide) hzeros (by decide)
  rw [hthree] at hsame hplaced
  rw [hmany] at hboth hrefused
  refine ⟨⟨hsame, hplaced (by decide)⟩, hboth, ?_⟩
  obtain ⟨e, hrun, hkind⟩ := hrefused (by decide)
  have hshow : Text.hasDecimal 33 = true :=
    Text.hasDecimal_of_natAbs_lt (k := 2) (by decide) (by decide)
  obtain ⟨rfl, -⟩ := hkind hshow
  exact hrun

end EvmAssembler
