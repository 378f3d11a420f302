import EvmAssembler.Proofs.Assembly.Script
import EvmAssembler.Proofs.Source.Yield

/-!
# `EvmAssembler.Proofs.Assembly.Laid`: the first pass follows the script

`Laid script l` is the invariant of the first pass: the layout holds the commands of the
script so far, their extent, and its definitions. Nothing else in a layout matters for the
program.

* `Layout.Responds` says how a layout answers one command: refused with a given error, or
  placed and nothing else changed.
* `Laid.perform`: one action, if the grammar can have produced it, is refused with the error
  `Scoped.fault?` gives, or it extends the script.
* `Laid.performAll` and `Laid.layOutAll`: so the actions of a unit, and then all units, fail
  first where their script does, or lay out the whole of it.
-/

set_option autoImplicit false

namespace EvmAssembler

open Source (Action PushOperand LabelPath)

/-- What may stand in a layout: instructions that have bytes, and at least one of them, and
references of a width that a push can have. -/
def Placement.IsSound : Placement → Prop
  | .instruction i => i.Encodable ∧ i.isAssertion = false
  | .reference width _ => 1 ≤ width ∧ width ≤ maxPushBytes

namespace Layout

/-! ### Answers to one command -/

/-- The layout with a sound command placed. Its events are left open. -/
structure Places (l : Layout) (c : Placement) (next : Layout) : Prop where
  sound : c.IsSound
  placed : next.placed = c :: l.placed
  offset : next.offset = l.offset + c.extent
  labels : next.labels = l.labels
  space : next.space = l.space

/-- The layout refuses the command with an error, or places it. -/
inductive Responds (l : Layout) (c : Placement) : Option Error → Except Error Layout → Prop where
  | refused (e : Error) : Responds l c (some e) (.error e)
  | placed {next : Layout} : l.Places c next → Responds l c none (.ok next)

/-- A command that is to be refused with an error is answered by the error. -/
theorem Responds.eq_error {l : Layout} {c : Placement} {e : Error} {answer : Except Error Layout}
    (h : l.Responds c (some e) answer) : answer = .error e := by
  cases h with
  | refused => rfl

/-- A command that is not to be refused is answered by a layout that has it placed. -/
theorem Responds.exists_places {l : Layout} {c : Placement} {answer : Except Error Layout}
    (h : l.Responds c none answer) : ∃ next, answer = .ok next ∧ l.Places c next := by
  cases h with
  | placed hnext => exact ⟨_, rfl, hnext⟩

/-- An index that has been checked is short enough to be shown, and it is shown by its digits. -/
theorem indexed_int (word : String) {n : Nat} (h : n ≤ maxStackIndex) :
    Instruction.indexed word (.int n) = .ok (word ++ Text.decimal n) := by
  have hlt : (n : Int).natAbs < 10 ^ 2 := by
    rw [Int.natAbs_natCast]
    exact Nat.lt_of_le_of_lt h (by decide)
  have hshow : Datum.isShowable (.int n) = true := Text.hasDecimal_of_natAbs_lt (by decide) hlt
  have hplain : Datum.plain (.int n) = Text.decimal n := by
    show Text.signedDecimal n = Text.decimal n
    rw [Text.signedDecimal, if_neg (by omega)]
    rfl
  rw [Instruction.indexed, if_pos hshow, hplain]

/-- What can be encoded has a mnemonic. -/
theorem exists_mnemonic {i : Instruction} {bytes : List UInt8} (h : i.Encodes bytes) :
    ∃ text, i.mnemonic = .ok text := by
  cases h with
  | assertion p => exact ⟨_, rfl⟩
  | unknown b => exact ⟨_, rfl⟩
  | fixed op => exact ⟨op.name, rfl⟩
  | dup _ most => exact ⟨_, indexed_int "DUP" most⟩
  | swap _ most => exact ⟨_, indexed_int "SWAP" most⟩
  | push _ _ => exact ⟨_, rfl⟩

/-- An instruction that has bytes is placed. -/
theorem responds_issue {l : Layout} {i : Instruction} {bytes : List UInt8} (h : i.Encodes bytes)
    (hnote : i.isAssertion = false) : l.Responds (.instruction i) none (l.issue i) := by
  obtain ⟨text, htext⟩ := exists_mnemonic h
  have hsize : i.size = .ok i.extent := Instruction.size_eq_extent ⟨bytes, h.encode⟩
  rw [issue, hsize, except_bind_ok, htext]
  exact .placed ⟨⟨⟨bytes, h.encode⟩, hnote⟩, rfl, rfl, rfl, rfl⟩

/-- An instruction without bytes is refused with the encoder's error. -/
theorem responds_issue_error {l : Layout} {i : Instruction} {c : Placement} {e : Error}
    (h : i.encode = refuse e) : l.Responds c (some e.raised) (l.issue i) := by
  have hsize : i.size = .error e.raised := Instruction.size_eq_error_of_encode h
  rw [issue, hsize, except_bind_error]
  exact .refused _

/-- An instruction with a stack index is placed if the stack has that index. -/
theorem responds_indexed (l : Layout) {i : Instruction} {n : Nat} {bytes : List UInt8}
    (hnote : i.isAssertion = false) (hin : 1 ≤ n → n ≤ maxStackIndex → i.Encodes bytes)
    (hout : indexWithin? maxStackIndex (.int n) = none → i.encode = refuse (.stackIndex (.int n))) :
    l.Responds (.instruction i)
      ((if 1 ≤ n ∧ n ≤ maxStackIndex then none else some (.stackIndex (.int n))).map Error.raised)
      (l.issue i) := by
  by_cases hn : 1 ≤ n ∧ n ≤ maxStackIndex
  · rw [if_pos hn]
    exact responds_issue (hin hn.1 hn.2) hnote
  · rw [if_neg hn]
    exact responds_issue_error (hout (Instruction.indexWithin?_int_eq_none (by omega)))

/-- Of the natural numbers, those up to 255 are bytes. -/
theorem ofByte_int (n : Nat) :
    Instruction.ofByte (.int n) =
      if n ≤ 0xFF then .ok (.unknown (UInt8.ofNat n)) else refuse (.unknownByte (.int n)) := by
  show (if 0 ≤ (n : Int) ∧ (n : Int) ≤ 0xFF then _ else _) = _
  by_cases hn : n ≤ 0xFF
  · rw [if_pos hn, if_pos (by omega), Int.toNat_natCast]
  · rw [if_neg hn, if_neg (by omega)]

/-- A lone byte is placed if its literal can be read and stands for one. -/
theorem responds_byte (l : Layout) {literal : String} (h : Text.IsLiteral literal.toList) :
    l.Responds (.instruction (.unknown (UInt8.ofNat (Text.literalValue literal.toList))))
      ((Action.byte literal).refusal?.map Error.raised) (l.perform (.byte literal)) := by
  show l.Responds _ _ (l.issueByte literal)
  rw [Action.refusal?, issueByte, Text.readInteger_eq h]
  by_cases hread : Text.IsReadable literal.toList
  · rw [if_pos hread, if_pos hread, ofReading, except_bind_ok]
    generalize Text.literalValue literal.toList = n
    rw [ofByte_int]
    by_cases hn : n ≤ 0xFF
    · rw [if_pos hn, if_pos hn, except_bind_ok]
      exact responds_issue (.unknown _) rfl
    · rw [if_neg hn, if_neg hn]
      exact .refused _
  · rw [if_neg hread, if_neg hread]
    exact .refused _

/-! ### Pushes -/

/-- The width of a keyword is read by place value, unless it has too many digits. -/
theorem keywordWidth_eq {keyword : String} (h : Source.IsPushKeyword keyword) :
    keywordWidth keyword =
      if (keyword.toList.drop 4).length ≤ Text.maxDecimalDigits then
        .ok ((pushWidth? keyword).map Int.ofNat)
      else .error .tooManyDigits := by
  obtain ⟨letters, digits, hkeyword, hlen, hdigits⟩ := h
  have hdrop : keyword.toList.drop 4 = digits := by rw [hkeyword, ← hlen, List.drop_left]
  rw [keywordWidth, pushWidth?, hdrop]
  -- A keyword without digits has no width, and the limit on digits does not touch it.
  cases digits with
  | nil => rw [if_pos (by decide)]; rfl
  | cons d ds =>
    have hread := Text.readDecimal_eq (List.cons_ne_nil d ds) hdigits
    dsimp only
    rw [hread]
    by_cases hlong : Text.maxDecimalDigits < (d :: ds).length
    · rw [if_pos hlong, if_neg (by omega)]
      rfl
    · rw [if_neg hlong, if_pos (by omega)]
      rfl

/-- What the digits of a hexadecimal literal fill is one byte at least. -/
theorem one_le_literalBytes {text : List Char} (h : Text.IsLiteral text)
    (hmarked : Text.isHexMarked text = true) : 1 ≤ Text.literalBytes text := by
  cases h with
  | decimal _ hbase =>
    rw [Text.isHexMarked_decimal hbase] at hmarked
    cases hmarked
  | hex _ hne _ =>
    have hpos := List.length_pos_iff.mpr hne
    rw [Text.literalBytes, Text.literalDigits, if_pos hmarked]
    simp only [List.drop_succ_cons, List.drop_zero]
    omega

/-- A numeral of too many digits is refused in a push too, whatever the width. -/
theorem literalPush_eq_error {text : String} (h : Text.IsLiteral text.toList)
    (hread : ¬Text.IsReadable text.toList) (width : Option Int) :
    literalPush width text = .error .tooManyDigits := by
  have hmarked : Text.isHexMarked text.toList = false := by
    rw [Bool.eq_false_iff]
    exact fun hmarked => hread (Text.isReadable_of_isHexMarked hmarked)
  rw [literalPush, hmarked, Bool.and_false, if_neg (by decide), Text.readInteger_eq h,
    if_neg hread]
  rfl

/-- A push of a literal is placed if the literal fits the width that is asked for, and is
otherwise as wide as it has to be. -/
theorem responds_literal (l : Layout) {text : String} (h : Text.IsLiteral text.toList)
    (hread : Text.IsReadable text.toList) (width : Option Nat) :
    l.Responds
      (.instruction (.push (Immediate.bytes (width.getD (literalWidth text.toList))
        (Text.literalValue text.toList))))
      ((literalRefusal? text.toList width).map Error.raised)
      ((literalPush (width.map Int.ofNat) text).bind l.issue) := by
  have hinteger : ofReading (Text.readInteger text.toList) =
      .ok (Text.literalValue text.toList : Nat) := by
    rw [Text.readInteger_eq h, if_pos hread]
    rfl
  have hpush : ∀ w n, 1 ≤ w → w ≤ maxPushBytes →
      l.Responds (.instruction (.push (Immediate.bytes w n))) none
        (l.issue (.push (Immediate.bytes w n))) := by
    intro w n h1 h2
    exact responds_issue (.push (by rwa [Immediate.length_bytes])
      (by rwa [Immediate.length_bytes])) rfl
  cases width with
  | some w =>
    show l.Responds (.instruction (.push (Immediate.bytes w _))) _
      (((ofReading (Text.readInteger text.toList)).bind fun n =>
        Instruction.pushInt n (some (w : Nat))).bind l.issue)
    rw [hinteger, except_bind_ok, Instruction.pushInt_some, literalRefusal?]
    by_cases hw : 1 ≤ w ∧ w ≤ maxPushBytes
    · rw [if_pos hw, if_pos hw]
      by_cases hfits : Text.literalValue text.toList < 256 ^ w
      · rw [if_pos hfits, if_pos hfits, except_bind_ok]
        exact hpush _ _ hw.1 hw.2
      · rw [if_neg hfits, if_neg hfits]
        exact .refused _
    · rw [if_neg hw, if_neg hw]
      exact .refused _
  | none =>
    rw [literalRefusal?, Option.getD_none, literalWidth]
    cases hmarked : Text.isHexMarked text.toList with
    | true =>
      -- The bytes are made first, and it is the encoder that finds them too many.
      have hbytes := Text.readHexBytes_eq h hmarked
      have hone := one_le_literalBytes h hmarked
      rw [literalPush, hmarked, hbytes]
      show l.Responds _ _ (l.issue (.push (Immediate.bytes (Text.literalBytes text.toList) _)))
      rw [if_pos rfl]
      by_cases hmost : Text.literalBytes text.toList ≤ maxPushBytes
      · rw [if_pos hmost]
        exact hpush _ _ hone hmost
      · rw [if_neg hmost]
        refine responds_issue_error ?_
        rw [Instruction.encode, Immediate.length_bytes, Instruction.pushCode_int,
          if_neg (by omega)]
        rfl
    | false =>
      have hwidth := Immediate.one_le_width (Text.literalValue text.toList)
      have hfits : Immediate.width (Text.literalValue text.toList) ≤ maxPushBytes ↔
        Text.literalValue text.toList < 256 ^ maxPushBytes := Immediate.width_le_iff (by decide)
      rw [literalPush, hmarked]
      show l.Responds _ _ (((ofReading (Text.readInteger text.toList)).bind fun n =>
        Instruction.pushInt n none).bind l.issue)
      rw [hinteger, except_bind_ok, Instruction.pushInt_none, if_neg (by decide)]
      by_cases hmost : Immediate.width (Text.literalValue text.toList) ≤ maxPushBytes
      · rw [if_pos hmost, if_pos (hfits.mp hmost), except_bind_ok]
        exact hpush _ _ hwidth hmost
      · rw [if_neg hmost, if_neg (hfits.not.mp hmost)]
        exact .refused _

/-- A reference is placed if its width is one a push can have. The label need not exist. -/
theorem responds_refer (l : Layout) (w : Nat) {path : LabelPath} (h : Source.IsLabelPath path) :
    l.Responds (.reference w (LabelPath.target l.space path))
      ((if 1 ≤ w ∧ w ≤ maxPushBytes then none else some (.pushLength (.int w))).map Error.raised)
      (l.refer (.int w) path) := by
  have hresolve : l.resolve path = .ok (LabelPath.target l.space path) := by
    cases h with
    | plain _ => rfl
    | qualified _ _ => rfl
  by_cases hw : 1 ≤ w ∧ w ≤ maxPushBytes
  · rw [if_pos hw, refer, Instruction.indexWithin?_int_of_le hw.1 hw.2]
    dsimp only
    rw [hresolve]
    exact .placed ⟨hw, rfl, rfl, rfl, rfl⟩
  · rw [if_neg hw, refer, Instruction.indexWithin?_int_eq_none (by omega)]
    exact .refused _

/-- A push fails for its width before it fails for its operand. -/
theorem responds_push (l : Layout) {keyword : String} {operand : PushOperand} {c : Placement}
    (hkeyword : Source.IsPushKeyword keyword) (hoperand : operand.IsWellFormed)
    (hc : Scoped.command? ⟨l.space, .push keyword operand⟩ = some c) :
    l.Responds c ((Action.push keyword operand).refusal?.map Error.raised)
      (l.issuePush keyword operand) := by
  rw [issuePush, keywordWidth_eq hkeyword]
  by_cases hdigits : (keyword.toList.drop 4).length ≤ Text.maxDecimalDigits
  · rw [if_pos hdigits, except_bind_ok]
    cases operand with
    | literal text =>
      obtain rfl := Option.some.inj hc
      rw [Action.refusal?, if_pos hdigits]
      dsimp only
      by_cases hread : Text.IsReadable text.toList
      · rw [if_pos hread]
        exact responds_literal l hoperand hread _
      · rw [if_neg hread, literalPush_eq_error hoperand hread]
        exact .refused _
    | reference path =>
      obtain rfl := Option.some.inj hc
      have hwidth : ((pushWidth? keyword).map Int.ofNat).getD (defaultReferenceWidth : Nat) =
          ((pushWidth? keyword).getD defaultReferenceWidth : Nat) := by
        cases pushWidth? keyword <;> rfl
      rw [Action.refusal?, if_pos hdigits]
      dsimp only
      rw [hwidth]
      exact responds_refer l _ hoperand
  · -- The width is read before the operand, so it does not matter what is pushed.
    rw [if_neg hdigits, Action.refusal?_push_of_not_le hdigits]
    exact .refused _

/-- A command is answered as the script says. -/
theorem responds_perform (l : Layout) {s : Scoped} {c : Placement} (hspace : l.space = s.space)
    (hwf : s.action.IsWellFormed) (hc : s.command? = some c) :
    l.Responds c (s.action.refusal?.map Error.raised) (l.perform s.action) := by
  obtain ⟨space, action⟩ := s
  obtain rfl : l.space = space := hspace
  cases action with
  | opcode op =>
    obtain rfl := Option.some.inj hc
    exact responds_issue (.fixed op) rfl
  | dup n =>
    obtain rfl := Option.some.inj hc
    refine responds_indexed l rfl (fun h1 h2 => .dup h1 h2) fun hnone => ?_
    exact congrArg (Except.map ([·])) (Instruction.rangeCode_eq_refuse hnone)
  | swap n =>
    obtain rfl := Option.some.inj hc
    refine responds_indexed l rfl (fun h1 h2 => .swap h1 h2) fun hnone => ?_
    exact congrArg (Except.map ([·])) (Instruction.rangeCode_eq_refuse hnone)
  | byte literal =>
    obtain rfl := Option.some.inj hc
    exact responds_byte l hwf
  | push keyword operand =>
    obtain ⟨hkeyword, hoperand⟩ := hwf
    exact responds_push l hkeyword hoperand hc
  -- Neither of these places anything.
  | label name => cases hc
  | unknown text => cases hc

end Layout

/-! ### The invariant -/

/-- The layout holds what the script has asked for so far. -/
structure Laid (script : Script) (l : Layout) : Prop where
  placements : l.placements = script.commands
  offset : l.offset = script.extent
  labels : l.labels = script.definitions.reverse
  sound : ∀ c ∈ script.commands, c.IsSound

/-- The first pass has come to the end of the script, or to its first failure. -/
inductive Follows (script : Script) : Layout × Option Error → Prop where
  | done {l : Layout} : Laid script l → script.IsClean → Follows script (l, none)
  | failed {l : Layout} {e : Error} : script.FailsFirst e → Follows script (l, some e)

namespace Laid

variable {script : Script} {l : Layout}

/-- The empty layout holds the empty script. -/
theorem empty : Laid [] .empty :=
  ⟨rfl, rfl, rfl, fun _ hc => by cases hc⟩

/-- A label is known to the layout when the script has defined it. -/
theorem isSome_lookup_iff (h : Laid script l) (label : String) :
    (l.labels.lookup label).isSome = true ↔ label ∈ script.labels := by
  rw [h.labels, List.lookup_isSome_iff, Script.labels, List.mem_map]
  constructor
  · rintro ⟨d, hd, heq⟩
    exact ⟨d, List.mem_reverse.mp hd, (beq_iff_eq.mp heq).symm⟩
  · rintro ⟨d, hd, rfl⟩
    exact ⟨d, List.mem_reverse.mpr hd, beq_self_eq_true _⟩

/-- Placing a command extends the script by the action that asked for it. -/
theorem place (h : Laid script l) {s : Scoped} {c : Placement} {next : Layout}
    (hc : s.command? = some c) (hp : l.Places c next) : Laid (script ++ [s]) next := by
  have hcommands : Script.commands [s] = [c] := by
    rw [Script.commands, List.filterMap_cons, hc]
    rfl
  refine ⟨?_, ?_, ?_, ?_⟩
  · rw [Layout.placements, hp.placed, List.reverse_cons, Script.commands_append, hcommands,
      ← h.placements]
    rfl
  · -- The layout grows by what the command says, and the script by the sum of one command.
    rw [hp.offset, h.offset, Script.extent_append]
    congr 1
    rw [Script.extent, hcommands]
    exact (Nat.add_zero _).symm
  · rw [hp.labels, h.labels, Script.definitions_append_command script hc]
  · intro d hd
    rw [Script.commands_append, hcommands] at hd
    rcases List.mem_append.mp hd with hd | hd
    · exact h.sound d hd
    · rw [List.mem_singleton.mp hd]
      exact hp.sound

/-- A definition extends the script too, if the label is new. -/
theorem define (h : Laid script l) (name : String) :
    (Layout.qualified l.space name ∈ script.labels ∧
        l.define name = .error (.duplicateLabel (Layout.qualified l.space name))) ∨
      ∃ next, Layout.qualified l.space name ∉ script.labels ∧ l.define name = .ok next ∧
        Laid (script ++ [⟨l.space, .label name⟩]) next ∧ next.space = l.space := by
  have hknown := h.isSome_lookup_iff (Layout.qualified l.space name)
  rw [Layout.define]
  by_cases hmem : Layout.qualified l.space name ∈ script.labels
  · rw [if_pos (hknown.mpr hmem)]
    exact Or.inl ⟨hmem, rfl⟩
  · rw [if_neg (hknown.not.mpr hmem)]
    have hcommands : Script.commands (script ++ [⟨l.space, .label name⟩]) = script.commands := by
      rw [Script.commands_append]
      exact List.append_nil _
    -- Only the labels change: a definition places nothing and takes no bytes.
    refine Or.inr ⟨_, hmem, rfl, ⟨?_, ?_, ?_, ?_⟩, rfl⟩
    · rw [hcommands, ← h.placements]
      rfl
    · rw [Script.extent_append, ← h.offset]
      rfl
    · rw [Script.definitions_append_label, List.reverse_append, ← h.labels, ← h.offset]
      rfl
    · rw [hcommands]
      exact h.sound

/-- One action of the grammar is refused as the script says, or extends it. -/
theorem perform (h : Laid script l) {s : Scoped} (hspace : l.space = s.space)
    (hwf : s.action.IsWellFormed) :
    (∃ e, s.fault? script.labels = some e ∧ l.perform s.action = .error e) ∨
      ∃ next, s.fault? script.labels = none ∧ l.perform s.action = .ok next ∧
        Laid (script ++ [s]) next ∧ next.space = s.space := by
  cases hc : s.command? with
  | some c =>
    -- For a command the labels have no say, so its own refusal is its fault in the script.
    have hanswer := Layout.responds_perform l hspace hwf hc
    rw [← s.fault?_of_command hc script.labels] at hanswer
    generalize s.fault? script.labels = fault at hanswer
    generalize l.perform s.action = result at hanswer
    cases hanswer with
    | refused e => exact Or.inl ⟨e, rfl, rfl⟩
    | @placed next hp => exact Or.inr ⟨next, rfl, rfl, h.place hc hp, hp.space.trans hspace⟩
  | none =>
    obtain ⟨space, action⟩ := s
    obtain rfl : l.space = space := hspace
    rcases Scoped.of_command?_eq_none hc with ⟨name, rfl⟩ | ⟨text, rfl⟩
    · rw [Scoped.fault?]
      dsimp only
      rcases h.define name with ⟨hmem, herror⟩ | ⟨next, hmem, hok, hnext⟩
      · rw [if_pos hmem]
        exact Or.inl ⟨_, rfl, herror⟩
      · rw [if_neg hmem]
        exact Or.inr ⟨next, rfl, hok, hnext⟩
    · exact Or.inl ⟨.unknownCommand text, rfl, rfl⟩

/-- Performing actions follows the script that they make. -/
theorem performAll (h : Laid script l) (hclean : script.IsClean) {actions : List Action}
    (hwf : ∀ a ∈ actions, a.IsWellFormed) :
    Follows (script ++ inSpace l.space actions) (l.performAll actions) := by
  -- Each action moves from the front of what is to come to the end of what has been done.
  induction actions generalizing script l with
  | nil =>
    rw [inSpace, List.map_nil, List.append_nil]
    exact .done h hclean
  | cons a rest ih =>
    have hsplit : script ++ inSpace l.space (a :: rest) =
        script ++ [⟨l.space, a⟩] ++ inSpace l.space rest := by
      rw [List.append_assoc]
      rfl
    rw [hsplit, Layout.performAll]
    rcases @perform script l h ⟨l.space, a⟩ rfl (hwf a List.mem_cons_self) with
      ⟨e, hfault, herror⟩ | ⟨next, hfault, hok, hnext, hspace⟩
    · dsimp only at herror
      rw [herror]
      exact .failed (Script.FailsFirst.append ⟨script, _, [], rfl, hclean, hfault⟩ _)
    · dsimp only at hok hspace
      rw [hok, ← hspace]
      have hclean' := Script.isClean_append_singleton.mpr ⟨hclean, hfault⟩
      rw [← hspace] at hnext hclean'
      exact ih hnext hclean' fun b hb => hwf b (List.mem_cons_of_mem a hb)

/-- Laying out units follows their script. -/
theorem layOutAll (h : Laid script l) (hclean : script.IsClean) {units : List SourceUnit}
    {rest : Script} (hunits : Script.ofUnits units = .ok rest) :
    Follows (script ++ rest) (Assembly.layOutAll l units) := by
  induction units generalizing script l rest with
  | nil =>
    obtain rfl := Except.ok.inj hunits
    rw [List.append_nil]
    exact .done h hclean
  | cons u units ih =>
    obtain ⟨actions, hactions, hrest⟩ := except_bind_eq_ok_iff.mp hunits
    obtain ⟨later, hlater, rfl⟩ := except_map_eq_ok_iff.mp hrest
    -- Reporting and entering a namespace touch nothing that the invariant speaks of.
    have henter : Laid script ((l.report (.processing u.space)).enter u.space) :=
      ⟨h.placements, h.offset, h.labels, h.sound⟩
    have hunit : Follows (script ++ inSpace u.space actions) (Assembly.layOut l u) := by
      rw [Assembly.layOut, hactions]
      exact henter.performAll hclean (Source.isWellFormed_of_actions hactions)
    rw [← List.append_assoc, Assembly.layOutAll]
    generalize Assembly.layOut l u = result at hunit
    cases hunit with
    | done hnext hclean' => exact ih hnext hclean' hlater
    | failed hfails => exact .failed (hfails.append later)

end Laid

end EvmAssembler
