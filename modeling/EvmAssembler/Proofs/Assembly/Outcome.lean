import EvmAssembler.Proofs.Assembly.Settled

/-!
# `EvmAssembler.Proofs.Assembly.Outcome`: when assembling succeeds and how it fails

`Script.IsAcceptable` lists the conditions for units to assemble, without a word about passes
or their order: every line is a command, every value is in its range, no label is defined
twice, and every reference has a label whose offset fits. One condition is about spelling: a
decimal numeral longer than the limit is refused even where its value is small, as zeros in
front of it count. A hexadecimal literal of the same value is taken.

`Assembly.program_outcome` says that these are all the conditions, what the program is when
they hold, and which error is seen when they do not: that of the first action refused, and
only if there is none that of the first reference.
-/

set_option autoImplicit false

namespace EvmAssembler

open Source (Action PushOperand)

/-! ### Actions on their own -/

/-- A check lets pass exactly what satisfies it. -/
theorem check_eq_none_iff {P : Prop} [Decidable P] {e : Error} :
    (if P then none else some e) = none ↔ P := by
  split <;> simp_all

/-- A literal is refused when it does not fit the width of its push, or 32 bytes. -/
theorem literalRefusal?_eq_none_iff {text : List Char} {width : Option Nat} :
    literalRefusal? text width = none ↔
      match width with
      | some w => (1 ≤ w ∧ w ≤ maxPushBytes) ∧ Text.literalValue text < 256 ^ w
      | none =>
        if Text.isHexMarked text then Text.literalBytes text ≤ maxPushBytes
        else Text.literalValue text < 256 ^ maxPushBytes := by
  cases width with
  | some w =>
    rw [literalRefusal?]
    dsimp only
    by_cases hw : 1 ≤ w ∧ w ≤ maxPushBytes
    · rw [if_pos hw, and_iff_right hw, check_eq_none_iff]
    · rw [if_neg hw]
      simp [hw]
  | none =>
    rw [literalRefusal?, check_eq_none_iff, literalWidth]
    dsimp only
    cases Text.isHexMarked text with
    | true => exact Iff.rfl
    | false =>
      -- A decimal literal takes no more bytes than its value needs.
      exact Immediate.width_le_iff (by decide)

/-- An action is accepted on its own exactly when it is a command or a definition, in range,
and readable. -/
theorem refusal?_eq_none_iff {a : Action} :
    a.refusal? = none ↔ (∀ text, a ≠ .unknown text) ∧ a.InRange ∧ a.IsReadable := by
  cases a with
  | opcode op => simp [Action.refusal?, Action.InRange, Action.IsReadable]
  | dup n => simp [Action.refusal?, Action.InRange, Action.IsReadable]
  | swap n => simp [Action.refusal?, Action.InRange, Action.IsReadable]
  | label name => simp [Action.refusal?, Action.InRange, Action.IsReadable]
  | unknown text => simp [Action.refusal?]
  | byte literal =>
    have hknown : ∀ text, Action.byte literal ≠ .unknown text := by
      intro text heq
      cases heq
    rw [and_iff_right hknown, Action.refusal?, Action.InRange, Action.IsReadable]
    by_cases hread : Text.IsReadable literal.toList
    · rw [if_pos hread, and_iff_left hread, check_eq_none_iff]
    · rw [if_neg hread]
      simp [hread]
  | push keyword operand =>
    have hknown : ∀ text, Action.push keyword operand ≠ .unknown text := by
      intro text heq
      cases heq
    rw [and_iff_right hknown]
    -- The width is read before the operand, so too many digits decide at once.
    by_cases hdigits : (keyword.toList.drop 4).length ≤ Text.maxDecimalDigits
    · cases operand with
      | literal text =>
        have hreadable : (Action.push keyword (.literal text)).IsReadable ↔
          Text.IsReadable text.toList := and_iff_right hdigits
        rw [hreadable, Action.refusal?, if_pos hdigits]
        by_cases hread : Text.IsReadable text.toList
        · rw [if_pos hread, and_iff_left hread, literalRefusal?_eq_none_iff]
          exact Iff.rfl
        · rw [if_neg hread]
          simp [hread]
      | reference path =>
        have hreadable : (Action.push keyword (.reference path)).IsReadable := ⟨hdigits, trivial⟩
        rw [and_iff_left hreadable, Action.refusal?, if_pos hdigits]
        exact check_eq_none_iff
    · have hunreadable : ¬(Action.push keyword operand).IsReadable := by
        cases operand with
        | literal _ => exact fun h => hdigits h.1
        | reference _ => exact fun h => hdigits h.1
      rw [Action.refusal?_push_of_not_le hdigits]
      simp [hunreadable]

/-- Being readable is not implied by being in range: zero is in range however it is written,
and no push takes it from too many digits. -/
theorem refusal?_zeros {n : Nat} (h : Text.maxDecimalDigits < n) :
    let zeros := Action.push "push" (.literal (String.ofList (List.replicate n '0')))
    zeros.InRange ∧ zeros.refusal? = some .tooManyDigits := by
  have hmarked : Text.isHexMarked (List.replicate n '0') = false := by
    refine Text.isHexMarked_decimal fun c hc => ?_
    rw [List.eq_of_mem_replicate hc]
    decide
  have hvalue : Text.literalValue (List.replicate n '0') = 0 := by
    rw [Text.literalValue, Text.literalDigits, hmarked]
    show Text.ofDigits 10 ((List.replicate n '0').map Text.digitValue) = 0
    rw [List.map_replicate, ← List.append_nil (List.replicate n (Text.digitValue '0'))]
    exact Text.ofDigits_replicate_append 10 n []
  have hread : ¬Text.IsReadable (List.replicate n '0') := by
    intro hread
    have := hread hmarked
    rw [List.length_replicate] at this
    omega
  have htext : (String.ofList (List.replicate n '0')).toList = List.replicate n '0' :=
    String.toList_ofList
  constructor
  · show (if Text.isHexMarked _ then _ else _)
    rw [htext, hmarked, hvalue]
    exact Nat.pow_pos (by decide)
  · show (if Text.IsReadable _ then _ else _) = _
    rw [htext, if_neg hread]

/-! ### Whole scripts -/

namespace Script

/-- What a script has to satisfy for its units to assemble. -/
structure IsAcceptable (script : Script) : Prop where
  /-- No line is rejected. -/
  known : ∀ s ∈ script, ∀ text, s.action ≠ .unknown text
  /-- Every byte, stack index, literal and width is in its range. -/
  inRange : ∀ s ∈ script, s.action.InRange
  /-- No decimal numeral is too long to be read. -/
  readable : ∀ s ∈ script, s.action.IsReadable
  /-- No label is defined twice. -/
  distinct : script.labels.Nodup
  /-- Every label that is referred to is defined, be it before or after, here or there. -/
  defined : ∀ width label, .reference width label ∈ script.commands → label ∈ script.labels
  /-- The offset of a label fits in every reference to it. -/
  fits : ∀ width label offset, .reference width label ∈ script.commands →
    (label, offset) ∈ script.definitions → offset < 256 ^ width

/-- A command cannot be kept, with the error, and all before it can. -/
def BreaksFirst (script : Script) (e : Error) : Prop :=
  ∃ before c after, script.commands = before ++ c :: after ∧
    (∀ b ∈ before, ∃ i, Kept script.definitions b i) ∧ Broken script.definitions c e

/-- Where commands can be kept, none of them refers to a missing label or to one too far away. -/
theorem forall_kept_iff {script : Script} (h : script.labels.Nodup) :
    (∀ c ∈ script.commands, ∃ i, Kept script.definitions c i) ↔
      (∀ width label, .reference width label ∈ script.commands → label ∈ script.labels) ∧
      ∀ width label offset, .reference width label ∈ script.commands →
        (label, offset) ∈ script.definitions → offset < 256 ^ width := by
  have hlookup := fun label offset => @lookup_eq_some_iff_mem _ _ _ _ label offset _ h
  constructor
  · -- What keeps a reference is the offset in as many bytes, so both can be read off it.
    intro hkept
    constructor
    · intro width label hmem
      obtain ⟨i, hi⟩ := hkept _ hmem
      cases hi with
      | reference hoffset _ =>
        exact List.mem_map.mpr ⟨_, (hlookup _ _).mp hoffset, rfl⟩
    · intro width label offset hmem hdefinition
      obtain ⟨i, hi⟩ := hkept _ hmem
      cases hi with
      | @reference _ _ data hoffset hlen =>
        rw [(hlookup _ _).mpr hdefinition] at hoffset
        rw [Option.some.inj hoffset, ← hlen]
        exact Immediate.toNat_lt data
  · -- The other way round, the offset in as many bytes is what keeps it.
    rintro ⟨hdefined, hfits⟩ c hc
    cases c with
    | instruction i => exact ⟨i, .instruction i⟩
    | reference width label =>
      obtain ⟨⟨key, offset⟩, hdefinition, rfl⟩ := List.mem_map.mp (hdefined width label hc)
      refine ⟨_, .reference ?_ (Immediate.length_bytes width offset)⟩
      rw [Immediate.toNat_bytes (hfits width key offset hc hdefinition)]
      exact (hlookup _ _).mpr hdefinition

/-- Acceptable scripts are those that are clean and whose commands can all be kept. -/
theorem isAcceptable_iff {script : Script} :
    script.IsAcceptable ↔
      script.IsClean ∧ ∀ c ∈ script.commands, ∃ i, Kept script.definitions c i := by
  have hactions : (∀ s ∈ script, s.action.refusal? = none) ↔
      (∀ s ∈ script, ∀ text, s.action ≠ .unknown text) ∧
        (∀ s ∈ script, s.action.InRange) ∧ ∀ s ∈ script, s.action.IsReadable := by
    simp only [refusal?_eq_none_iff, forall_and]
  rw [isClean_iff, hactions]
  constructor
  · intro h
    exact ⟨⟨⟨h.known, h.inRange, h.readable⟩, h.distinct⟩,
      (forall_kept_iff h.distinct).mpr ⟨h.defined, h.fits⟩⟩
  · rintro ⟨⟨⟨hknown, hrange, hread⟩, hdistinct⟩, hkept⟩
    obtain ⟨hdefined, hfits⟩ := (forall_kept_iff hdistinct).mp hkept
    exact ⟨hknown, hrange, hread, hdistinct, hdefined, hfits⟩

end Script

namespace Assembly

/-- When units assemble, to what, and with which error they fail if they do not. -/
theorem program_outcome {units : List SourceUnit} {script : Script}
    (h : Script.ofUnits units = .ok script) :
    ((∃ p, program units = .ok p) ↔ script.IsAcceptable) ∧
      (∀ p, program units = .ok p →
        List.Forall₂ (Kept script.definitions) script.commands p) ∧
      ∀ e, program units = .error e ↔
        script.FailsFirst e ∨ script.IsClean ∧ script.BreaksFirst e := by
  refine ⟨?_, fun p hp => ((program_eq_ok_iff h).mp hp).2, fun e => program_eq_error_iff h⟩
  rw [Script.isAcceptable_iff, ← exists_forall₂_iff]
  constructor
  · rintro ⟨p, hp⟩
    obtain ⟨hclean, hkept⟩ := (program_eq_ok_iff h).mp hp
    exact ⟨hclean, p, hkept⟩
  · rintro ⟨hclean, p, hkept⟩
    exact ⟨p, (program_eq_ok_iff h).mpr ⟨hclean, hkept⟩⟩

/-- Two units of which the second refers to a label of the first under the wrong namespace. -/
def astray : List SourceUnit :=
  [⟨"main", none, "top: jumpdest"⟩, ⟨"lib", none, "push1 &top\npush1 &main::top"⟩]

/-- The script of these units. -/
def astrayScript : Script :=
  [⟨"main", .label "top"⟩, ⟨"main", .opcode .JUMPDEST⟩,
    ⟨"lib", .push "push1" (.reference ["top"])⟩,
    ⟨"lib", .push "push1" (.reference ["main", "top"])⟩]

/-- The first reference of the second unit is to a label of its own, and it has none. So the units
are not acceptable, and they fail with that label. -/
theorem program_outcome_astray :
    Script.ofUnits astray = .ok astrayScript ∧ ¬astrayScript.IsAcceptable ∧
      program astray = .error (.undefinedLabel "lib::top") := by
  have hscript : (Script.ofUnits astray).toOption = some astrayScript := by decide +kernel
  have hread := eq_ok_of_toOption hscript
  obtain ⟨haccept, -, hfails⟩ := program_outcome hread
  have hcommands : astrayScript.commands = [.instruction .jumpdest] ++
      .reference 1 "lib::top" :: [.reference 1 "main::top"] := by rfl
  have hclean : astrayScript.IsClean := by
    have hwidth : pushWidth? "push1" = some 1 := by decide +kernel
    refine Script.isClean_iff.mpr ⟨?_, by decide⟩
    simp [astrayScript, Action.refusal?, hwidth, Text.maxDecimalDigits, maxPushBytes]
  have hbreaks : astrayScript.BreaksFirst (.undefinedLabel "lib::top") := by
    refine ⟨_, _, _, hcommands, fun c hc => ?_, .undefined (by decide)⟩
    rw [List.mem_singleton.mp hc]
    exact ⟨_, .instruction _⟩
  have herror := (hfails _).mpr (Or.inr ⟨hclean, hbreaks⟩)
  refine ⟨hread, fun hacceptable => ?_, herror⟩
  obtain ⟨p, hp⟩ := haccept.mpr hacceptable
  rw [hp] at herror
  cases herror

end Assembly

end EvmAssembler
