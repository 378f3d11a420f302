import EvmAssembler.CommandLine.Run
import EvmAssembler.Proofs.Assembly.Settled
import EvmAssembler.Proofs.Source.Unreadable

/-!
# `EvmAssembler.Proofs.Assembly.Escape`: failures that are not reported

Assembling is meant to succeed or to fail with an error that the command line reports: one of the
source, or one of the encoder. `Assembly.Escapes` lists the ways in which units get around this, in
the order in which they are met, and `Assembly.program_eq_unreported_iff` says that there are no
others:

* a text cannot be read,
* an action is refused for a numeral that is too long, or cannot be refused because the number to
  be shown is too large (`Action.IsMute`),
* the offset of a label does not fit its reference, and is too large to be shown.

A script of units is the starting point wherever all of them can be read. `program_of_failsFirst`
and `program_of_unreadable` say what is seen of units of which only the first can.
-/

set_option autoImplicit false

namespace EvmAssembler

open Source (Action)
open CommandLine (isReported)

/-! ### Errors -/

/-- An error that would be reported is, unless it cannot be shown. -/
theorem isReported_raised {e : Error} (h : isReported e = true) :
    isReported e.raised = e.isShowable := by
  rw [Error.raised]
  cases e.isShowable with
  | true => exact h
  | false => rfl

/-- What is raised in its place is the same for all that cannot be shown. -/
theorem raised_of_not_isShowable {e : Error} (h : e.isShowable = false) :
    e.raised = .tooManyDigits := by
  rw [Error.raised, h]
  rfl

/-! ### Actions -/

/-- The action has a decimal numeral that is too long, or its refusal would have to show a number
that is too large. -/
def Source.Action.IsMute (a : Action) : Prop :=
  ¬a.IsReadable ∨ ∃ e, a.refusal? = some e ∧ e.isShowable = false

/-- A literal is refused with an error that is reported. -/
theorem isReported_of_literalRefusal? {text : List Char} {width : Option Nat} {e : Error}
    (h : literalRefusal? text width = some e) : isReported e = true := by
  cases width with
  | some w =>
    rw [literalRefusal?] at h
    split at h
    · split at h
      · cases h
      · obtain rfl := Option.some.inj h
        rfl
    · obtain rfl := Option.some.inj h
      rfl
  | none =>
    rw [literalRefusal?] at h
    split at h
    · cases h
    · obtain rfl := Option.some.inj h
      rfl

/-- An action that cannot be read is refused for just that, and any other with an error that is
reported. -/
theorem refusal?_cases (a : Action) :
    ¬a.IsReadable ∧ a.refusal? = some .tooManyDigits ∨
      a.IsReadable ∧ ∀ e, a.refusal? = some e → isReported e = true := by
  -- A check that an action passes or fails has one refusal to give.
  have hcheck : ∀ {P : Prop} [Decidable P] {d : Error}, isReported d = true →
      ∀ e, (if P then none else some d) = some e → isReported e = true := by
    intro P _ d hd e h
    split at h
    · cases h
    · rwa [← Option.some.inj h]
  cases a with
  | opcode op => exact Or.inr ⟨trivial, fun e h => by cases h⟩
  | label name => exact Or.inr ⟨trivial, fun e h => by cases h⟩
  | dup n => exact Or.inr ⟨trivial, hcheck rfl⟩
  | swap n => exact Or.inr ⟨trivial, hcheck rfl⟩
  | unknown text => exact Or.inr ⟨trivial, fun e h => by rw [← Option.some.inj h]; rfl⟩
  | byte literal =>
    rw [Action.refusal?, Action.IsReadable]
    by_cases hread : Text.IsReadable literal.toList
    · rw [if_pos hread]
      exact Or.inr ⟨hread, hcheck rfl⟩
    · rw [if_neg hread]
      exact Or.inl ⟨hread, rfl⟩
  | push keyword operand =>
    by_cases hdigits : (keyword.toList.drop 4).length ≤ Text.maxDecimalDigits
    · cases operand with
      | literal text =>
        rw [Action.refusal?, if_pos hdigits]
        by_cases hread : Text.IsReadable text.toList
        · rw [if_pos hread]
          exact Or.inr ⟨⟨hdigits, hread⟩, fun e => isReported_of_literalRefusal?⟩
        · rw [if_neg hread]
          exact Or.inl ⟨fun h => hread h.2, rfl⟩
      | reference path =>
        rw [Action.refusal?, if_pos hdigits]
        exact Or.inr ⟨⟨hdigits, trivial⟩, hcheck rfl⟩
    · exact Or.inl ⟨fun h => hdigits h.1, Action.refusal?_push_of_not_le hdigits⟩

/-- An action is mute exactly when the error seen of it is one that is not reported. -/
theorem Source.Action.isMute_iff {a : Action} {e : Error} :
    a.refusal?.map Error.raised = some e ∧ isReported e = false ↔
      a.IsMute ∧ e = .tooManyDigits := by
  rw [Action.IsMute]
  rcases refusal?_cases a with ⟨hread, hrefusal⟩ | ⟨hread, hrefusal⟩
  · rw [hrefusal]
    constructor
    · rintro ⟨h, -⟩
      exact ⟨Or.inl hread, (Option.some.inj h).symm⟩
    · rintro ⟨-, rfl⟩
      exact ⟨rfl, rfl⟩
  · constructor
    · rintro ⟨h, hreport⟩
      obtain ⟨d, hd, rfl⟩ := Option.map_eq_some_iff.mp h
      rw [isReported_raised (hrefusal d hd)] at hreport
      exact ⟨Or.inr ⟨d, hd, hreport⟩, raised_of_not_isShowable hreport⟩
    · rintro ⟨hmute, rfl⟩
      obtain ⟨d, hd, hshow⟩ := hmute.resolve_left (not_not_intro hread)
      rw [hd]
      exact ⟨congrArg some (raised_of_not_isShowable hshow), rfl⟩

/-- A definition is refused with an error that is reported, so the same holds in a script. -/
theorem Scoped.fault?_unreported_iff {s : Scoped} {defined : List String} {e : Error} :
    s.fault? defined = some e ∧ isReported e = false ↔
      s.action.IsMute ∧ e = .tooManyDigits := by
  rw [← Action.isMute_iff]
  obtain ⟨space, action⟩ := s
  cases action with
  | label name =>
    rw [Scoped.fault?]
    dsimp only
    constructor
    · rintro ⟨h, hreport⟩
      split at h
      · rw [← Option.some.inj h] at hreport
        cases hreport
      · cases h
    · rintro ⟨h, -⟩
      cases h
  | _ => exact Iff.rfl

/-! ### Units of which only the first are read -/

namespace Assembly

variable {before after : List SourceUnit} {u : SourceUnit} {script : Script} {e : Error}

/-- Units are laid out one after another. -/
theorem layOutAll_append (l : Layout) (before after : List SourceUnit) :
    layOutAll l (before ++ after) =
      match layOutAll l before with
      | (next, none) => layOutAll next after
      | (next, some e) => (next, some e) := by
  induction before generalizing l with
  | nil => rfl
  | cons u before ih =>
    rw [List.cons_append, layOutAll, layOutAll]
    cases layOut l u with
    | mk next fault =>
      cases fault with
      | none => exact ih next
      | some e => rfl

/-- Units whose script fails are all that matters, whatever follows them. -/
theorem program_of_failsFirst (h : Script.ofUnits before = .ok script)
    (hfails : script.FailsFirst e) (after : List SourceUnit) :
    program (before ++ after) = .error e := by
  have hfollows := Laid.empty.layOutAll Script.isClean_nil h
  rw [List.nil_append] at hfollows
  rw [program, ofUnits, layOutAll_append]
  generalize layOutAll .empty before = result at hfollows
  cases hfollows with
  | done _ hclean => exact absurd hclean hfails.not_isClean
  | failed hfails' => rw [hfails.unique hfails']

/-- Behind units that are laid out, a unit that cannot be read ends it. -/
theorem program_of_unreadable (h : Script.ofUnits before = .ok script) (hclean : script.IsClean)
    (hu : Source.actions u.text.toList = .error e) (after : List SourceUnit) :
    program (before ++ u :: after) = .error e := by
  have hfollows := Laid.empty.layOutAll Script.isClean_nil h
  rw [List.nil_append] at hfollows
  rw [program, ofUnits, layOutAll_append]
  generalize layOutAll .empty before = result at hfollows
  cases hfollows with
  | done _ _ =>
    dsimp only
    rw [layOutAll, layOut, hu]
  | failed hfails => exact absurd hclean hfails.not_isClean

/-- Units can all be read, or there is a first that cannot. -/
theorem exists_script_or_unreadable (units : List SourceUnit) :
    (∃ script, Script.ofUnits units = .ok script) ∨
      ∃ before u after script e, units = before ++ u :: after ∧
        Script.ofUnits before = .ok script ∧ Source.actions u.text.toList = .error e := by
  induction units with
  | nil => exact Or.inl ⟨[], rfl⟩
  | cons u units ih =>
    cases hu : Source.actions u.text.toList with
    | error e => exact Or.inr ⟨[], u, units, [], e, rfl, rfl, hu⟩
    | ok actions =>
      have hcons : ∀ {rest : List SourceUnit} {script : Script}, Script.ofUnits rest = .ok script →
          Script.ofUnits (u :: rest) = .ok (inSpace u.space actions ++ script) := by
        intro rest script hrest
        rw [Script.ofUnits, hu, except_bind_ok, hrest]
        rfl
      rcases ih with ⟨script, hscript⟩ | ⟨before, v, after, script, e, rfl, hscript, hv⟩
      · exact Or.inl ⟨_, hcons hscript⟩
      · exact Or.inr ⟨u :: before, v, after, _, e, rfl, hcons hscript, hv⟩

/-! ### Escapes -/

/-- How units fail with an error that is not reported. -/
inductive Escapes (units : List SourceUnit) : Error → Prop where
  /-- A text cannot be read, and the units before it are laid out without a failure. -/
  | text {before : List SourceUnit} {u : SourceUnit} {after : List SourceUnit} {script : Script}
    {e : Error} : units = before ++ u :: after → Script.ofUnits before = .ok script →
      script.IsClean → Source.Unreadable u.text.toList e → Escapes units e
  /-- An action is mute, and none before it fails. -/
  | action {before after : List SourceUnit} {script rest : Script} {s : Scoped} :
    units = before ++ after → Script.ofUnits before = .ok (script ++ s :: rest) →
      script.IsClean → s.action.IsMute → Escapes units .tooManyDigits
  /-- The offset of a label does not fit its reference and cannot be shown, no action fails, and
  every reference before it is kept. -/
  | offset {script : Script} {before after : List Placement} {width offset : Nat}
    {label : String} : Script.ofUnits units = .ok script → script.IsClean →
      script.commands = before ++ .reference width label :: after →
      (∀ b ∈ before, ∃ i, Kept script.definitions b i) →
      script.definitions.lookup label = some offset → 256 ^ width ≤ offset →
      Text.hasDecimal offset = false → Escapes units .tooManyDigits

/-- A script that fails with an error that is not reported has a mute action. -/
theorem Escapes.of_failsFirst (h : Script.ofUnits before = .ok script)
    (hfails : script.FailsFirst e) (hreport : isReported e = false) (after : List SourceUnit) :
    Escapes (before ++ after) e := by
  obtain ⟨first, s, rest, rfl, hclean, hfault⟩ := hfails
  obtain ⟨hmute, rfl⟩ := Scoped.fault?_unreported_iff.mp ⟨hfault, hreport⟩
  exact .action rfl h hclean hmute

/-- Units fail with an error that is not reported exactly when they escape with it. -/
theorem program_eq_unreported_iff {units : List SourceUnit} {e : Error} :
    program units = .error e ∧ isReported e = false ↔ Escapes units e := by
  constructor
  · rintro ⟨herror, hreport⟩
    -- If a unit is not read, the first such decides, unless an action in front of it fails.
    rcases exists_script_or_unreadable units with
      ⟨script, hscript⟩ | ⟨before, u, after, script, d, rfl, hscript, hu⟩
    · rcases (program_eq_error_iff hscript).mp herror with
        hfails | ⟨hclean, first, c, rest, hcommands, hkept, hbroken⟩
      · have h := Escapes.of_failsFirst hscript hfails hreport []
        rwa [List.append_nil] at h
      · cases hbroken with
        | undefined _ => cases hreport
        | truncated hlookup hlarge =>
          have hshow := hreport
          rw [isReported_raised rfl] at hshow
          rw [raised_of_not_isShowable hshow]
          exact .offset hscript hclean hcommands hkept hlookup hlarge hshow
    · by_cases hclean : script.IsClean
      · rw [program_of_unreadable hscript hclean hu] at herror
        obtain rfl := Except.error.inj herror
        exact .text rfl hscript hclean (Source.actions_eq_error_iff.mp hu)
      · obtain ⟨f, hfails, -⟩ := exists_failed hscript hclean
        rw [program_of_failsFirst hscript hfails] at herror
        obtain rfl := Except.error.inj herror
        exact .of_failsFirst hscript hfails hreport _
  · intro h
    cases h with
    | text hunits hscript hclean hread =>
      rw [hunits]
      refine ⟨program_of_unreadable hscript hclean (Source.actions_eq_error_iff.mpr hread) _, ?_⟩
      cases hread with
      | index _ _ => rfl
      | blankLine _ _ => rfl
    | @action before after script rest s hunits hscript hclean hmute =>
      obtain ⟨hfault, hreport⟩ : s.fault? script.labels = some .tooManyDigits ∧ _ :=
        Scoped.fault?_unreported_iff.mpr ⟨hmute, rfl⟩
      rw [hunits]
      exact ⟨program_of_failsFirst hscript ⟨script, s, rest, rfl, hclean, hfault⟩ after, hreport⟩
    | @offset _ _ _ width offset _ hscript hclean hcommands hkept hlookup hlarge hshow =>
      have hmute : (Error.pushOverflow offset width).isShowable = false := hshow
      have hbroken := Broken.truncated hlookup hlarge
      rw [raised_of_not_isShowable hmute] at hbroken
      refine ⟨(program_eq_error_iff hscript).mpr ?_, rfl⟩
      exact Or.inr ⟨hclean, _, _, _, hcommands, hkept, hbroken⟩

end Assembly

end EvmAssembler
