import EvmAssembler.Assembly
import EvmAssembler.Proofs.Immediate
import EvmAssembler.Proofs.Text.Literal
import Mathlib.Data.List.Nodup

/-!
# `EvmAssembler.Proofs.Assembly.Script`: what assembling units means

The assembler keeps a state and goes through the actions of one unit after another. This
module says what the actions mean without any state. A `Script` is the whole list of them,
each with the namespace of its unit, and everything else is read off the script:

* `Script.commands`: what is to be placed, in order. A reference keeps its width and its label.
* `Script.definitions`: the labels with their offsets, each the sum of the extents before it.
* `Scoped.fault?`: why an action is refused on the spot. Only the labels defined earlier
  have a say in it.
* `Script.IsClean` and `Script.FailsFirst`: no action is refused, or one is and none before it.

`Action.InRange` and `Action.IsReadable` split the reasons why an action on its own is
refused: a value out of its range, and a decimal numeral too long to be looked at.
-/

set_option autoImplicit false

namespace EvmAssembler

open Source (Action PushOperand LabelPath)

/-! ### Scripts -/

/-- An action with the namespace of the unit that asks for it. -/
structure Scoped where
  space : String
  action : Action
  deriving DecidableEq

/-- The actions of units, in the order of the units and of their texts. -/
abbrev Script := List Scoped

/-- The actions as those of a unit with the given namespace. -/
def inSpace (space : String) (actions : List Action) : Script :=
  actions.map fun a => ⟨space, a⟩

/-- The script of units. There is none if one of the texts cannot be read. -/
def Script.ofUnits : List SourceUnit → Except Error Script
  | [] => .ok []
  | u :: rest => (Source.actions u.text.toList).bind fun actions =>
    (Script.ofUnits rest).map (inSpace u.space actions ++ ·)

/-! ### Commands -/

/-- The number behind the four letters of a push keyword, if there is one. -/
def pushWidth? (keyword : String) : Option Nat :=
  match keyword.toList.drop 4 with
  | [] => none
  | digits => some (Text.ofDigits 10 (digits.map Text.digitValue))

/-- The bytes that a literal takes in a push without a width: as many as its digits fill if it
is hexadecimal, and as many as its value needs otherwise. -/
def literalWidth (text : List Char) : Nat :=
  if Text.isHexMarked text then Text.literalBytes text
  else Immediate.width (Text.literalValue text)

/-- The label that a path means in a namespace. -/
def Source.LabelPath.target (space : String) : LabelPath → String
  | [] => Layout.qualified space ""
  | [name] => Layout.qualified space name
  | other :: name :: _ => Layout.qualified other name

/-- What an action has placed. Definitions and rejected lines place nothing. -/
def Scoped.command? (s : Scoped) : Option Placement :=
  match s.action with
  | .opcode op => some (.instruction (.ofOpcode op))
  | .dup n => some (.instruction (.dup (.int n)))
  | .swap n => some (.instruction (.swap (.int n)))
  | .push keyword (.literal text) =>
    let width := (pushWidth? keyword).getD (literalWidth text.toList)
    some (.instruction (.push (Immediate.bytes width (Text.literalValue text.toList))))
  | .push keyword (.reference path) =>
    some (.reference ((pushWidth? keyword).getD Layout.defaultReferenceWidth)
      (LabelPath.target s.space path))
  | .byte literal =>
    some (.instruction (.unknown (UInt8.ofNat (Text.literalValue literal.toList))))
  | .label _ | .unknown _ => none

/-- What places nothing is a definition or a rejected line. -/
theorem Scoped.of_command?_eq_none {s : Scoped} (hc : s.command? = none) :
    (∃ name, s.action = .label name) ∨ ∃ text, s.action = .unknown text := by
  obtain ⟨space, action⟩ := s
  cases action with
  | label name => exact Or.inl ⟨name, rfl⟩
  | unknown text => exact Or.inr ⟨text, rfl⟩
  | push keyword operand => cases operand <;> cases hc
  | _ => cases hc

/-- The bytes that a placement takes, whatever becomes of it. -/
def Placement.extent : Placement → Nat
  | .instruction i => i.extent
  | .reference width _ => 1 + width

namespace Script

/-- What a script has placed, in order. -/
def commands (script : Script) : List Placement :=
  script.filterMap Scoped.command?

/-- The bytes that all commands of a script take. -/
def extent (script : Script) : Nat :=
  (script.commands.map Placement.extent).sum

/-- The labels that a script defines, if its first byte is at the given offset. -/
def definitionsFrom (offset : Nat) : Script → List (String × Nat)
  | [] => []
  | ⟨space, .label name⟩ :: rest =>
    (Layout.qualified space name, offset) :: definitionsFrom offset rest
  | s :: rest => definitionsFrom (offset + extent [s]) rest

/-- The labels that a script defines, in order, with their offsets. -/
def definitions (script : Script) : List (String × Nat) :=
  script.definitionsFrom 0

/-- The labels that a script defines, in order. -/
def labels (script : Script) : List String :=
  script.definitions.map Prod.fst

/-- The commands of two scripts are placed one after another. -/
@[simp] theorem commands_append (s t : Script) : commands (s ++ t) = s.commands ++ t.commands :=
  List.filterMap_append

/-- The second of two scripts starts behind the bytes of the first, so their extents add up. -/
@[simp] theorem extent_append (s t : Script) : extent (s ++ t) = s.extent + t.extent := by
  simp [extent]

/-- The definitions of a part of a script are shifted by what stands before it. -/
theorem definitionsFrom_append (offset : Nat) (s t : Script) :
    definitionsFrom offset (s ++ t) =
      definitionsFrom offset s ++ definitionsFrom (offset + s.extent) t := by
  fun_induction definitionsFrom offset s with
  | case1 offset => rfl
  | case2 offset space name rest ih =>
    have hzero : extent (⟨space, .label name⟩ :: rest) = extent rest := rfl
    rw [List.cons_append, definitionsFrom, ih, hzero, List.cons_append]
  | case3 offset s rest hs ih =>
    have hsum : extent (s :: rest) = extent [s] + extent rest := extent_append [s] rest
    rw [List.cons_append, definitionsFrom, ih, hsum, Nat.add_assoc]
    exact hs

/-- Its definitions are shifted by the extent of the first. -/
theorem definitions_append (s t : Script) :
    definitions (s ++ t) = s.definitions ++ definitionsFrom s.extent t := by
  rw [definitions, definitionsFrom_append, Nat.zero_add]
  rfl

/-- A definition at the end of a script has the extent of the script as its offset. -/
theorem definitions_append_label (script : Script) (space name : String) :
    definitions (script ++ [⟨space, .label name⟩]) =
      script.definitions ++ [(Layout.qualified space name, script.extent)] :=
  definitions_append script _

/-- Whatever places something defines nothing. -/
theorem definitions_append_command (script : Script) {s : Scoped} {c : Placement}
    (hc : s.command? = some c) : definitions (script ++ [s]) = script.definitions := by
  rw [definitions_append, definitionsFrom]
  · exact List.append_nil _
  · rintro space name rfl
    cases hc

/-- A command defines nothing, so the labels stay as they are. -/
theorem labels_append_command (script : Script) {s : Scoped} {c : Placement}
    (hc : s.command? = some c) : labels (script ++ [s]) = script.labels := by
  rw [labels, definitions_append_command script hc]
  rfl

/-- A definition adds its label, under the namespace in which it stands. -/
theorem labels_append_label (script : Script) (space name : String) :
    labels (script ++ [⟨space, .label name⟩]) =
      script.labels ++ [Layout.qualified space name] := by
  rw [labels, definitions_append_label, List.map_append]
  rfl

/-- The labels of a script are those that one of its actions defines. -/
theorem mem_labels_iff {script : Script} {label : String} :
    label ∈ script.labels ↔
      ∃ space name, ⟨space, .label name⟩ ∈ script ∧ label = Layout.qualified space name := by
  -- The offset only decides the second components, but the induction has to let it vary.
  have hfrom : ∀ offset, label ∈ (definitionsFrom offset script).map Prod.fst ↔
      ∃ space name, ⟨space, .label name⟩ ∈ script ∧ label = Layout.qualified space name := by
    intro offset
    fun_induction definitionsFrom offset script with
    | case1 offset => simp
    | case2 offset space name rest ih =>
      rw [List.map_cons, List.mem_cons, ih]
      constructor
      · rintro (rfl | ⟨space', name', hmem, rfl⟩)
        · exact ⟨space, name, List.mem_cons_self, rfl⟩
        · exact ⟨space', name', List.mem_cons_of_mem _ hmem, rfl⟩
      · rintro ⟨space', name', hmem, rfl⟩
        rcases List.mem_cons.mp hmem with heq | hmem
        · injection heq with hspace haction
          injection haction with hname
          exact Or.inl (by rw [hspace, hname])
        · exact Or.inr ⟨space', name', hmem, rfl⟩
    | case3 offset s rest hs ih =>
      rw [ih]
      constructor
      · rintro ⟨space, name, hmem, rfl⟩
        exact ⟨space, name, List.mem_cons_of_mem s hmem, rfl⟩
      · rintro ⟨space, name, hmem, rfl⟩
        rcases List.mem_cons.mp hmem with rfl | hmem
        · exact absurd rfl (hs space name)
        · exact ⟨space, name, hmem, rfl⟩
  exact hfrom 0

end Script

/-! ### Faults -/

/-- The values that an action may have. A hexadecimal literal without a width counts by its
digits, leading zeros included, and a decimal one by its value. -/
def Source.Action.InRange : Action → Prop
  | .opcode _ | .label _ | .unknown _ => True
  | .dup n | .swap n => 1 ≤ n ∧ n ≤ maxStackIndex
  | .byte literal => Text.literalValue literal.toList ≤ 0xFF
  | .push keyword (.literal text) =>
    match pushWidth? keyword with
    | some w => (1 ≤ w ∧ w ≤ maxPushBytes) ∧ Text.literalValue text.toList < 256 ^ w
    | none =>
      if Text.isHexMarked text.toList then Text.literalBytes text.toList ≤ maxPushBytes
      else Text.literalValue text.toList < 256 ^ maxPushBytes
  | .push keyword (.reference _) =>
    let w := (pushWidth? keyword).getD Layout.defaultReferenceWidth
    1 ≤ w ∧ w ≤ maxPushBytes

/-- Every decimal numeral in the action is within the limit on its length. -/
def Source.Action.IsReadable : Action → Prop
  | .opcode _ | .label _ | .unknown _ | .dup _ | .swap _ => True
  | .byte literal => Text.IsReadable literal.toList
  | .push keyword operand =>
    (keyword.toList.drop 4).length ≤ Text.maxDecimalDigits ∧
      match operand with
      | .literal text => Text.IsReadable text.toList
      | .reference _ => True

/-- Why a push of a literal is refused. -/
def literalRefusal? (text : List Char) : (width : Option Nat) → Option Error
  | some w =>
    if 1 ≤ w ∧ w ≤ maxPushBytes then
      if Text.literalValue text < 256 ^ w then none
      else some (.pushOverflow (Text.literalValue text) w)
    else some (.pushLength (.int w))
  | none =>
    if literalWidth text ≤ maxPushBytes then none
    else some (.pushLength (.int (literalWidth text)))

/-- Why an action is refused, whatever has been done before. -/
def Source.Action.refusal? : Action → Option Error
  | .opcode _ | .label _ => none
  | .dup n | .swap n =>
    if 1 ≤ n ∧ n ≤ maxStackIndex then none else some (.stackIndex (.int n))
  | .byte literal =>
    if Text.IsReadable literal.toList then
      if Text.literalValue literal.toList ≤ 0xFF then none
      else some (.unknownByte (.int (Text.literalValue literal.toList)))
    else some .tooManyDigits
  | .push keyword operand =>
    if (keyword.toList.drop 4).length ≤ Text.maxDecimalDigits then
      match operand with
      | .literal text =>
        if Text.IsReadable text.toList then literalRefusal? text.toList (pushWidth? keyword)
        else some .tooManyDigits
      | .reference _ =>
        let w := (pushWidth? keyword).getD Layout.defaultReferenceWidth
        if 1 ≤ w ∧ w ≤ maxPushBytes then none else some (.pushLength (.int w))
    else some .tooManyDigits
  | .unknown text => some (.unknownCommand text)

/-- A push whose width has too many digits is refused before its operand is looked at. -/
theorem Source.Action.refusal?_push_of_not_le {keyword : String} {operand : PushOperand}
    (h : ¬(keyword.toList.drop 4).length ≤ Text.maxDecimalDigits) :
    (Action.push keyword operand).refusal? = some .tooManyDigits := by
  cases operand with
  | literal _ => exact if_neg h
  | reference _ => exact if_neg h

/-- The error that is seen in place of one that cannot be reported. -/
def Error.raised (e : Error) : Error :=
  if e.isShowable then e else .tooManyDigits

/-- The error of an action where the given labels are defined already. -/
def Scoped.fault? (defined : List String) (s : Scoped) : Option Error :=
  match s.action with
  | .label name =>
    let label := Layout.qualified s.space name
    if label ∈ defined then some (.duplicateLabel label) else none
  | a => a.refusal?.map Error.raised

/-- A command is refused or not, whatever the labels. -/
theorem Scoped.fault?_of_command {s : Scoped} {c : Placement} (hc : s.command? = some c)
    (defined : List String) : s.fault? defined = s.action.refusal?.map Error.raised := by
  obtain ⟨space, action⟩ := s
  cases action with
  | label name => cases hc
  | _ => rfl

/-- A definition is refused only where the label is there already. -/
theorem Scoped.fault?_label_eq_none_iff {defined : List String} {space name : String} :
    Scoped.fault? defined ⟨space, .label name⟩ = none ↔
      Layout.qualified space name ∉ defined := by
  rw [Scoped.fault?]
  dsimp only
  split <;> simp_all

namespace Script

/-- No action of the script is refused where it stands. -/
def IsClean (script : Script) : Prop :=
  ∀ (before : Script) (s : Scoped) (after : Script), script = before ++ s :: after →
    s.fault? before.labels = none

/-- An action is refused with the error, and none before it is refused. -/
def FailsFirst (script : Script) (e : Error) : Prop :=
  ∃ (before : Script) (s : Scoped) (after : Script), script = before ++ s :: after ∧
    before.IsClean ∧ s.fault? before.labels = some e

/-- The empty script has no action that could be refused. -/
theorem isClean_nil : IsClean [] := by
  intro before s after h
  cases before <;> cases h

/-- One more action leaves a script clean unless it is refused itself. -/
theorem isClean_append_singleton {script : Script} {s : Scoped} :
    IsClean (script ++ [s]) ↔ script.IsClean ∧ s.fault? script.labels = none := by
  constructor
  · intro h
    refine ⟨fun before t after heq => ?_, h script s [] rfl⟩
    exact h before t (after ++ [s]) (by rw [heq, List.append_assoc, List.cons_append])
  · rintro ⟨hscript, hs⟩ before t after heq
    -- The action asked about is the last one, or it stands in the script before.
    rcases List.eq_nil_or_concat after with rfl | ⟨rest, last, rfl⟩
    · obtain ⟨rfl, ht⟩ := List.append_inj' heq rfl
      obtain rfl := List.singleton_inj.mp ht
      exact hs
    · rw [List.concat_eq_append, ← List.cons_append, ← List.append_assoc] at heq
      exact hscript before t rest (List.append_inj' heq rfl).1

/-- A script is clean exactly when its actions are accepted each on its own and its labels are
distinct. -/
theorem isClean_iff {script : Script} :
    script.IsClean ↔ (∀ s ∈ script, s.action.refusal? = none) ∧ script.labels.Nodup := by
  -- From the end, because an action is judged by the labels that stand before it.
  induction script using List.reverseRecOn with
  | nil =>
    constructor
    · intro _
      refine ⟨fun s hs => ?_, List.nodup_nil⟩
      cases hs
    · intro _
      exact isClean_nil
  | append_singleton script s ih =>
    have hall : (∀ t ∈ script ++ [s], t.action.refusal? = none) ↔
        (∀ t ∈ script, t.action.refusal? = none) ∧ s.action.refusal? = none := by
      simp [or_imp, forall_and]
    rw [isClean_append_singleton, ih, hall]
    cases hc : s.command? with
    | some c =>
      rw [labels_append_command script hc, s.fault?_of_command hc, Option.map_eq_none_iff]
      exact and_right_comm
    | none =>
      obtain ⟨space, action⟩ := s
      rcases Scoped.of_command?_eq_none hc with ⟨name, rfl⟩ | ⟨text, rfl⟩
      · -- Distinct labels stay distinct exactly when the new one is not among them.
        have hnodup : (labels script ++ [Layout.qualified space name]).Nodup ↔
            (labels script).Nodup ∧ Layout.qualified space name ∉ labels script := by
          rw [← List.concat_eq_append, List.nodup_concat, and_comm]
        have hrefusal : (Action.label name).refusal? = none := rfl
        rw [labels_append_label, hnodup, Scoped.fault?_label_eq_none_iff, and_iff_left hrefusal,
          and_assoc]
      · constructor
        · rintro ⟨-, hfault⟩
          cases hfault
        · rintro ⟨⟨-, hrefusal⟩, -⟩
          cases hrefusal

/-- The first failure of a script stays the first, whatever follows. -/
theorem FailsFirst.append {script : Script} {e : Error} (h : script.FailsFirst e)
    (later : Script) : FailsFirst (script ++ later) e := by
  obtain ⟨before, s, after, rfl, hclean, hfault⟩ := h
  exact ⟨before, s, after ++ later, by rw [List.append_assoc, List.cons_append], hclean, hfault⟩

/-- A script that fails is not clean. -/
theorem FailsFirst.not_isClean {script : Script} {e : Error} (h : script.FailsFirst e) :
    ¬script.IsClean := by
  obtain ⟨before, s, after, rfl, -, hfault⟩ := h
  intro hclean
  rw [hclean before s after rfl] at hfault
  cases hfault

/-- A script fails first in one way only. -/
theorem FailsFirst.unique {script : Script} {d e : Error} (hd : script.FailsFirst d)
    (he : script.FailsFirst e) : d = e := by
  obtain ⟨before, s, after, rfl, hclean, hfault⟩ := hd
  obtain ⟨before', s', after', heq, hclean', hfault'⟩ := he
  -- If one of the two stood before the other, it would spoil what comes before that.
  rcases List.append_eq_append_iff.mp heq with ⟨mid, rfl, htail⟩ | ⟨mid, rfl, htail⟩
  · cases mid with
    | nil =>
      obtain ⟨rfl, -⟩ := List.cons.inj htail
      rw [List.append_nil, hfault] at hfault'
      exact Option.some.inj hfault'
    | cons t mid =>
      obtain ⟨rfl, -⟩ := List.cons.inj htail
      rw [hclean' before s mid rfl] at hfault
      cases hfault
  · cases mid with
    | nil =>
      obtain ⟨rfl, -⟩ := List.cons.inj htail
      rw [List.append_nil, hfault'] at hfault
      exact (Option.some.inj hfault).symm
    | cons t mid =>
      obtain ⟨rfl, -⟩ := List.cons.inj htail
      rw [hclean before' s' mid rfl] at hfault'
      cases hfault'

end Script

end EvmAssembler
