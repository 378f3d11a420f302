import EvmAssembler.Proofs.Assembly.Laid
import EvmAssembler.Proofs.Keys

/-!
# `EvmAssembler.Proofs.Assembly.Settled`: the second pass keeps the promises

A command is a promise: the first pass has counted its bytes before there is an instruction.
`Kept` says which instruction keeps it and `Broken` when none can, both by the offsets of
labels alone. On what the first pass lets through there is nothing else.

With the first pass described by its script, this gives the two lemmas that all results about
assembling start from:

* `program_eq_ok_iff`: units assemble to a program exactly when their script is clean and the
  program keeps its commands one by one.
* `program_eq_error_iff`: they fail with the first failure of the script, or, if the script is
  clean, with its first broken command.
-/

set_option autoImplicit false

namespace EvmAssembler

/-- An instruction is what a command has promised, given the offsets of labels: the
instruction itself, or a push of exactly the promised width that stands for the label's
offset. -/
inductive Kept (labels : List (String × Nat)) : Placement → Instruction → Prop where
  | instruction (i : Instruction) : Kept labels (.instruction i) i
  | reference {width : Nat} {label : String} {data : List UInt8} :
    labels.lookup label = some (Immediate.toNat data) → data.length = width →
      Kept labels (.reference width label) (.push data)

/-- A reference that no instruction can keep, with its error: the label has no offset, or one
that does not fit in the width. -/
inductive Broken (labels : List (String × Nat)) : Placement → Error → Prop where
  | undefined {width : Nat} {label : String} : labels.lookup label = none →
    Broken labels (.reference width label) (.undefinedLabel label)
  | truncated {width offset : Nat} {label : String} : labels.lookup label = some offset →
    256 ^ width ≤ offset →
      Broken labels (.reference width label) (Error.raised (.pushOverflow offset width))

/-! ### One command -/

section
variable {labels : List (String × Nat)} {c : Placement}

/-- A kept command has the extent that was counted for it. -/
theorem Kept.extent_eq {i : Instruction} (h : Kept labels c i) : i.extent = c.extent := by
  cases h with
  | instruction => rfl
  | reference _ hlen => rw [Placement.extent, ← hlen]; rfl

/-- What keeps a sound command has bytes, and at least one. -/
theorem Kept.sound {i : Instruction} (h : Kept labels c i) (hc : c.IsSound) :
    i.Encodable ∧ i.isAssertion = false := by
  cases h with
  | instruction => exact hc
  | @reference width label data _ hlen =>
    obtain ⟨h1, h2⟩ := hc
    exact ⟨⟨_, (Instruction.Encodes.push (by omega) (by omega)).encode⟩, rfl⟩

/-- A reference of a possible width is settled by its label's offset alone. -/
theorem settle_reference {width : Nat} {label : String}
    (hwidth : (Placement.reference width label).IsSound) :
    Layout.settle labels (.reference width label) =
      match labels.lookup label with
      | some offset =>
        if offset < 256 ^ width then .ok (.push (Immediate.bytes width offset))
        else .error (Error.raised (.pushOverflow offset width))
      | none => .error (.undefinedLabel label) := by
  have hrange : 1 ≤ width ∧ width ≤ maxPushBytes := hwidth
  rw [Layout.settle]
  cases labels.lookup label with
  | none => rfl
  | some offset =>
    dsimp only
    rw [Instruction.pushInt_some, if_pos hrange]
    rfl

/-- Settling a sound command gives the instruction that keeps it. -/
theorem settle_eq_ok_iff (hc : c.IsSound) {i : Instruction} :
    Layout.settle labels c = .ok i ↔ Kept labels c i := by
  cases c with
  | instruction j =>
    constructor
    · intro h
      obtain rfl := Except.ok.inj h
      exact .instruction j
    · intro h
      cases h
      rfl
  | reference width label =>
    rw [settle_reference hc]
    constructor
    · intro h
      split at h
      · rename_i offset hlookup
        split at h
        · rename_i hfits
          obtain rfl := Except.ok.inj h
          refine .reference ?_ (Immediate.length_bytes width offset)
          rw [Immediate.toNat_bytes hfits, hlookup]
        · cases h
      · cases h
    · -- The bytes that keep a reference are the only ones of their number with that value.
      intro h
      cases h with
      | @reference _ _ data hlookup hlen =>
        subst hlen
        rw [hlookup]
        dsimp only
        rw [if_pos (Immediate.toNat_lt data), Immediate.bytes_toNat]

/-- Settling a sound command fails exactly where it is broken. -/
theorem settle_eq_error_iff (hc : c.IsSound) {e : Error} :
    Layout.settle labels c = .error e ↔ Broken labels c e := by
  cases c with
  | instruction j =>
    constructor
    · intro h
      cases h
    · intro h
      cases h
  | reference width label =>
    rw [settle_reference hc]
    constructor
    · intro h
      split at h
      · rename_i offset hlookup
        split at h
        · cases h
        · rename_i hlarge
          obtain rfl := Except.error.inj h
          exact .truncated hlookup (Nat.le_of_not_lt hlarge)
      · rename_i hlookup
        obtain rfl := Except.error.inj h
        exact .undefined hlookup
    · -- A missing label comes first, since without it there is no offset to be too large.
      intro h
      cases h with
      | undefined hlookup => rw [hlookup]
      | truncated hlookup hlarge =>
        rw [hlookup]
        dsimp only
        rw [if_neg (Nat.not_lt.mpr hlarge)]

end

/-! ### Looking labels up -/

/-- The layout of a clean script finds the offsets that the script defines. -/
theorem Laid.lookup_eq {script : Script} {l : Layout} (h : Laid script l)
    (hclean : script.IsClean) (label : String) :
    l.labels.lookup label = script.definitions.lookup label := by
  rw [h.labels, lookup_reverse label (Script.isClean_iff.mp hclean).2]

/-- The program of a layout settles the commands of its script. -/
theorem Laid.program_eq {script : Script} {l : Layout} (h : Laid script l)
    (hclean : script.IsClean) :
    l.program = script.commands.mapM (Layout.settle script.definitions) := by
  have hsettle : Layout.settle l.labels = Layout.settle script.definitions := by
    funext c
    cases c with
    | instruction i => rfl
    | reference width label => rw [Layout.settle, Layout.settle, h.lookup_eq hclean]
  rw [Layout.program, hsettle, h.placements]

/-! ### Assembling -/

namespace Assembly

variable {units : List SourceUnit} {script : Script}

/-- Whatever assembles can be read. -/
theorem exists_script {l next : Layout} (h : layOutAll l units = (next, none)) :
    ∃ script, Script.ofUnits units = .ok script := by
  induction units generalizing l with
  | nil => exact ⟨[], rfl⟩
  | cons u units ih =>
    rw [layOutAll, layOut] at h
    cases hactions : Source.actions u.text.toList with
    | error e =>
      rw [hactions] at h
      cases h
    | ok actions =>
      -- The unit has been read, and the rest follows if performing its actions went well.
      rw [hactions] at h
      dsimp only at h
      split at h
      · obtain ⟨rest, hrest⟩ := ih h
        refine ⟨inSpace u.space actions ++ rest, ?_⟩
        rw [Script.ofUnits, hactions, except_bind_ok, hrest]
        rfl
      · cases h

/-- What units assemble to, once their first pass has succeeded. -/
theorem program_of_done {l : Layout} (h : layOutAll .empty units = (l, none)) :
    program units = l.program := by
  rw [program, ofUnits, h]

/-- The first pass over a clean script lays it out. -/
theorem exists_laid (h : Script.ofUnits units = .ok script) (hclean : script.IsClean) :
    ∃ l, layOutAll .empty units = (l, none) ∧ Laid script l := by
  have hfollows := Laid.empty.layOutAll Script.isClean_nil h
  rw [List.nil_append] at hfollows
  generalize layOutAll .empty units = result at hfollows
  cases hfollows with
  | done hlaid _ => exact ⟨_, rfl, hlaid⟩
  | failed hfails => exact absurd hclean hfails.not_isClean

/-- The first pass over any other script ends with its first failure. -/
theorem exists_failed (h : Script.ofUnits units = .ok script) (hunclean : ¬script.IsClean) :
    ∃ e, script.FailsFirst e ∧ program units = .error e := by
  have hfollows := Laid.empty.layOutAll Script.isClean_nil h
  rw [List.nil_append] at hfollows
  rw [program, ofUnits]
  generalize layOutAll .empty units = result at hfollows
  cases hfollows with
  | done _ hclean => exact absurd hclean hunclean
  | failed hfails => exact ⟨_, hfails, rfl⟩

/-- Units assemble to the program that keeps the commands of their script. -/
theorem program_eq_ok_iff (h : Script.ofUnits units = .ok script) {p : Program} :
    program units = .ok p ↔
      script.IsClean ∧ List.Forall₂ (Kept script.definitions) script.commands p := by
  by_cases hclean : script.IsClean
  · obtain ⟨l, hdone, hlaid⟩ := exists_laid h hclean
    rw [program_of_done hdone, hlaid.program_eq hclean, mapM_eq_ok_iff]
    rw [and_iff_right hclean]
    -- The commands of a layout are sound, so settling and keeping are the same.
    exact forall₂_congr_of_mem fun c hc i => settle_eq_ok_iff (hlaid.sound c hc)
  · obtain ⟨e, -, herror⟩ := exists_failed h hclean
    rw [herror]
    constructor
    · intro h
      cases h
    · rintro ⟨h, -⟩
      exact absurd h hclean

/-- Units that assemble have a script without failures, which the first pass has laid out and the
program keeps. -/
theorem exists_laid_of_program {p : Program} (h : program units = .ok p) :
    ∃ script l, Script.ofUnits units = .ok script ∧ layOutAll .empty units = (l, none) ∧
      Laid script l ∧ script.IsClean ∧
        List.Forall₂ (Kept script.definitions) script.commands p := by
  have hread : ∃ script, Script.ofUnits units = .ok script := by
    rw [program, ofUnits] at h
    split at h
    · rename_i hdone
      exact exists_script hdone
    · cases h
  obtain ⟨script, hscript⟩ := hread
  obtain ⟨hclean, hkept⟩ := (program_eq_ok_iff hscript).mp h
  obtain ⟨l, hdone, hlaid⟩ := exists_laid hscript hclean
  exact ⟨script, l, hscript, hdone, hlaid, hclean, hkept⟩

/-- Units fail with the first failure of their script. Only where there is none do they fail
with its first broken command. -/
theorem program_eq_error_iff (h : Script.ofUnits units = .ok script) {e : Error} :
    program units = .error e ↔ script.FailsFirst e ∨
      script.IsClean ∧ ∃ before c after, script.commands = before ++ c :: after ∧
        (∀ b ∈ before, ∃ i, Kept script.definitions b i) ∧ Broken script.definitions c e := by
  by_cases hclean : script.IsClean
  · obtain ⟨l, hdone, hlaid⟩ := exists_laid h hclean
    have hfails : ¬script.FailsFirst e := fun hfails => hfails.not_isClean hclean
    rw [program_of_done hdone, hlaid.program_eq hclean, mapM_eq_error_iff, or_iff_right hfails,
      and_iff_right hclean]
    refine exists_congr fun before => exists_congr fun c => exists_congr fun after =>
      and_congr_right fun heq => ?_
    have hsound : ∀ d ∈ before ++ c :: after, d.IsSound := heq ▸ hlaid.sound
    have hbefore : ∀ b ∈ before, ∀ i,
        Layout.settle script.definitions b = .ok i ↔ Kept script.definitions b i := by
      intro b hb i
      exact settle_eq_ok_iff (hsound b (List.mem_append_left _ hb))
    have hc := @settle_eq_error_iff script.definitions c
      (hsound c (List.mem_append_right _ List.mem_cons_self)) e
    rw [hc]
    exact and_congr_left' (forall₂_congr fun b hb => exists_congr (hbefore b hb))
  · -- The second pass is never entered, and there is only one first failure.
    obtain ⟨d, hfails, herror⟩ := exists_failed h hclean
    rw [herror]
    constructor
    · intro heq
      rw [← Except.error.inj heq]
      exact Or.inl hfails
    · rintro (he | ⟨hclean', -⟩)
      · rw [hfails.unique he]
      · exact absurd hclean' hclean

end Assembly

end EvmAssembler
