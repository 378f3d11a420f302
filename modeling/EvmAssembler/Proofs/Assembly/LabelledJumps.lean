import EvmAssembler.Proofs.Assembly.Agreement
import EvmAssembler.Proofs.Jumps

/-!
# `EvmAssembler.Proofs.Assembly.LabelledJumps`: jumps to labels under the jump check

A jump to a label is written as a reference with the jump right behind it. The jump check knows
nothing of labels: it reads a number back from the bytes of a push and walks to that offset.
`Assembly.labelledJumps_of_program` says that it nevertheless judges such a jump by what the
source says. The jump is listed with the offset of its label, and it is bad exactly when the first
command behind the label's definition is no jump destination, or when there is no such command.

The two halves meet in the layout. A kept reference pushes its label's offset
(`exists_split_of_kept`), and a walk to that offset leaves the instructions that keep what was
asked for behind the definition, the first of them by the first command
(`head?_eq_jumpdest_iff_of_kept`). An unknown byte that looks like a jump destination is a command
of its own kind, so it does not count as one.
-/

set_option autoImplicit false

namespace EvmAssembler

/-- Without annotations, the first instruction of a program is its head. -/
theorem Program.first?_eq_head? {p : Program} (h : ∀ i ∈ p, i.isAssertion = false) :
    p.first? = p.head? := by
  cases p with
  | nil => rfl
  | cons i p => simp [Program.first?_cons, h i List.mem_cons_self]

section
variable {labels : List (String × Nat)} {p : Program}

/-- A program starts with a jump destination when the commands it keeps do. No reference becomes
one. -/
theorem head?_eq_jumpdest_iff_of_kept {cs : List Placement}
    (h : List.Forall₂ (Kept labels) cs p) :
    p.head? = some .jumpdest ↔ cs.head? = some (.instruction .jumpdest) := by
  cases h with
  | nil => simp
  | cons hkept _ =>
    cases hkept with
    | instruction i => simp
    | reference _ _ => simp [Instruction.jumpdest, Instruction.ofOpcode]

/-- A reference with an instruction behind it has become a push of the label's offset with the
same instruction behind it. -/
theorem exists_split_of_kept {before after : List Placement} {width : Nat} {label : String}
    {i : Instruction}
    (h : List.Forall₂ (Kept labels) (before ++ .reference width label :: .instruction i :: after)
      p) :
    ∃ q data r, p = q ++ .push data :: i :: r ∧ q.length = before.length ∧
      labels.lookup label = some (Immediate.toNat data) := by
  induction before generalizing p with
  | nil =>
    cases h with
    | cons hfirst hrest =>
      cases hrest with
      | @cons _ _ _ r hsecond _ =>
        cases hsecond
        cases hfirst with
        | @reference _ _ data hlookup _ => exact ⟨[], data, r, rfl, rfl, hlookup⟩
  | cons c before ih =>
    cases h with
    | @cons _ j _ p _ hrest =>
      obtain ⟨q, data, r, rfl, hlength, hlookup⟩ := ih hrest
      exact ⟨j :: q, data, r, rfl, by simp [hlength], hlookup⟩

end

/-- What the jump check makes of a jump that is asked for right behind a reference to a label,
with the commands `before` in front of the reference. -/
structure LabelledJump (script : Script) (l : Layout) (p : Program) (jumps bad : List (Nat × Nat))
    (before : List Placement) (label : String) (position offset : Nat) : Prop where
  /-- The jump stands at the position: so many bytes are taken by what is asked for before it. -/
  measured : Program.size (p.take (before.length + 1)) = .ok position
  /-- The label has the offset. -/
  labelled : l.labels.lookup label = some offset
  /-- The jump is found with the label's offset as its target. -/
  listed : (position, offset) ∈ jumps
  /-- The label is defined somewhere. -/
  defined : ∃ (earlier : Script) (space name : String) (later : Script),
    script = earlier ++ ⟨space, .label name⟩ :: later ∧ label = Layout.qualified space name
  /-- The jump is bad unless the first command behind the definition is a jump destination. -/
  judged : ∀ (earlier : Script) (space name : String) (later : Script),
    script = earlier ++ ⟨space, .label name⟩ :: later → label = Layout.qualified space name →
      ((position, offset) ∈ bad ↔ later.commands.head? ≠ some (.instruction .jumpdest))

/-- Where the program agrees with its layout, a jump destination stands at a label's offset when
one is asked for first behind its definition. -/
theorem Agreement.jumpdestAt_iff {script : Script} {l : Layout} {p : Program}
    (h : Agreement script l p) (hnotes : ∀ i ∈ p, i.isAssertion = false) {earlier later : Script}
    {space name : String} (hscript : script = earlier ++ ⟨space, .label name⟩ :: later)
    {offset : Nat} (hoffset : l.labels.lookup (Layout.qualified space name) = some offset) :
    p.JumpdestAt offset ↔ later.commands.head? = some (.instruction .jumpdest) := by
  obtain ⟨offset', hoffset', -, hdrop⟩ := h.located earlier space name later hscript
  obtain rfl : offset' = offset := Option.some.inj (hoffset'.symm.trans hoffset)
  -- What is left of the program keeps what is left of the commands.
  have hcommands : l.placements.drop earlier.commands.length = later.commands := by
    rw [h.placements, hscript, Script.commands_append, List.drop_left]
    rfl
  have hrest := List.forall₂_drop earlier.commands.length h.kept
  rw [hcommands] at hrest
  rw [Program.jumpdestAt_iff_of_dropBytes h.encodable hdrop, ← head?_eq_jumpdest_iff_of_kept hrest,
    Program.first?_eq_head? fun i hi => hnotes i (List.mem_of_mem_drop hi)]

namespace Assembly

open Classical in
/-- In every program that units assemble to, the jump check finds each jump that stands right
behind a reference, with the label's offset as its target, and calls it bad exactly when the first
command behind the label's definition, in whatever unit, is no jump destination or is missing. -/
theorem labelledJumps_of_program {units : List SourceUnit} {p : Program}
    (h : program units = .ok p) :
    ∃ script l jumps bad, Script.ofUnits units = .ok script ∧
      layOutAll .empty units = (l, none) ∧ p.staticJumps = .ok jumps ∧ p.badJumps = .ok bad ∧
      ∀ before width label jump after,
        l.placements = before ++ .reference width label :: .instruction jump :: after →
          jump.isJump = true →
            p[before.length + 1]? = some jump ∧
              ∃ position offset,
                LabelledJump script l p jumps bad before label position offset := by
  obtain ⟨script, l, hscript, hl, hlaid, hclean, hkept⟩ := exists_laid_of_program h
  have hagree := hlaid.agreement hclean hkept
  obtain ⟨-, hnotes⟩ := sound_of_kept hkept hlaid.sound
  have hbad := Program.badJumps_eq hagree.encodable (fun n => decide (p.JumpdestAt n)) fun n =>
    decide_eq_true_iff
  refine ⟨script, l, _, _, hscript, hl, Program.staticJumps_eq hagree.encodable, hbad, ?_⟩
  intro before width label jump after hplacements hjump
  -- The command became a push right in front of the jump, and such a pair is what the check lists.
  obtain ⟨q, data, r, hp, hlength, hlookup⟩ := exists_split_of_kept (hplacements ▸ hagree.kept)
  have hlisted : (q.extent + (1 + data.length), Immediate.toNat data) ∈
      Program.jumpsAfter none (p.rowsFrom 0) := by
    have hmem := @Program.mem_jumpsAfter_of_push q r data jump hjump none 0
    rwa [Nat.zero_add, ← hp] at hmem
  have htake : p.take (before.length + 1) = q ++ [.push data] := by
    rw [hp, ← hlength, List.take_length_add_append]
    rfl
  refine ⟨by simp [hp, ← hlength], _, _, ?_, hlookup, hlisted, ?_, ?_⟩
  · rw [Program.size_eq_extent (hagree.encodable.of_subset (List.take_subset _ _)), htake,
      Program.extent_append]
    rfl
  · obtain ⟨space, name, hdefinition, hlabel⟩ :=
      hagree.referenced width label (by simp [hplacements])
    obtain ⟨earlier, later, hsplit⟩ := List.append_of_mem hdefinition
    exact ⟨earlier, space, name, later, hsplit, hlabel⟩
  · intro earlier space name later hsplit hlabel
    have hat := hagree.jumpdestAt_iff hnotes hsplit (hlabel ▸ hlookup)
    simp [hlisted, hat]

/-- A loop whose label stands at a border between units, and a jump to a label with a byte behind it
that only looks like a jump destination. -/
def lookalike : List SourceUnit :=
  [⟨"main", none, "push1 &lib::trap\njump\npush1 &top\njumpi\ntop:"⟩,
    ⟨"lib", none, "jumpdest\ntrap: .byte 0x5b"⟩]

/-- The jump to `top` is fine, for the first command behind it is the jump destination of the next
unit. The jump to `trap` is bad. -/
theorem labelledJumps_lookalike :
    ∃ p bad, program lookalike = .ok p ∧
      p.code = .ok [0x60, 0x07, 0x56, 0x60, 0x06, 0x57, 0x5B, 0x5B] ∧
      p.staticJumps = .ok [(2, 7), (5, 6)] ∧ p.badJumps = .ok bad ∧
      (2, 7) ∈ bad ∧ (5, 6) ∉ bad := by
  have hcode : (code lookalike).toOption =
      some [0x60, 0x07, 0x56, 0x60, 0x06, 0x57, 0x5B, 0x5B] := by decide +kernel
  obtain ⟨p, hp, hbytes⟩ := except_bind_eq_ok_iff.mp (eq_ok_of_toOption hcode)
  obtain ⟨script, l, jumps, bad, hscript, hl, hjumps, hbad, hall⟩ := labelledJumps_of_program hp
  have hplacements : l.placements = script.commands := by
    obtain ⟨script', l', hscript', hl', hlaid, -⟩ := exists_laid_of_program hp
    obtain rfl := Except.ok.inj (hscript.symm.trans hscript')
    obtain rfl : l' = l := congrArg Prod.fst (hl'.symm.trans hl)
    exact hlaid.placements
  have hwritten : Script.ofUnits lookalike = .ok
      [⟨"main", .push "push1" (.reference ["lib", "trap"])⟩, ⟨"main", .opcode .JUMP⟩,
        ⟨"main", .push "push1" (.reference ["top"])⟩, ⟨"main", .opcode .JUMPI⟩,
        ⟨"main", .label "top"⟩, ⟨"lib", .opcode .JUMPDEST⟩, ⟨"lib", .label "trap"⟩,
        ⟨"lib", .byte "0x5b"⟩] := eq_ok_of_toOption (by decide +kernel)
  obtain rfl := Except.ok.inj (hwritten.symm.trans hscript)
  have hlabels : (layOutAll .empty lookalike).1.labels = [("lib::trap", 7), ("main::top", 6)] := by
    decide +kernel
  rw [hl] at hlabels
  have hlist : ((program lookalike).bind Program.staticJumps).toOption =
      some [(2, 7), (5, 6)] := by decide +kernel
  rw [hp, except_bind_ok, hjumps] at hlist
  obtain rfl : jumps = [(2, 7), (5, 6)] := Option.some.inj hlist
  obtain ⟨-, position, offset, htrap⟩ := hall [] _ _ _ _ hplacements rfl
  obtain ⟨-, position', offset', htop⟩ := hall [_, _] _ _ _ _ hplacements rfl
  have htrapoffset := htrap.labelled
  have htopoffset := htop.labelled
  have htraplisted := htrap.listed
  have htoplisted := htop.listed
  rw [hlabels] at htrapoffset htopoffset
  obtain rfl : 7 = offset := Option.some.inj htrapoffset
  obtain rfl : 6 = offset' := Option.some.inj htopoffset
  obtain rfl : position = 2 := by simpa using htraplisted
  obtain rfl : position' = 5 := by simpa using htoplisted
  refine ⟨p, bad, hp, hbytes, hjumps, hbad, ?_, ?_⟩
  · rw [htrap.judged [_, _, _, _, _, _] "lib" "trap" _ rfl rfl]
    simp [Script.commands, Scoped.command?, Instruction.jumpdest, Instruction.ofOpcode]
  · rw [htop.judged [_, _, _, _] "main" "top" _ rfl rfl, not_not]
    rfl

end Assembly

end EvmAssembler
