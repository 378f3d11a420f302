import EvmAssembler.Proofs.Assembly.Settled
import EvmAssembler.Proofs.Navigation

/-!
# `EvmAssembler.Proofs.Assembly.Agreement`: the two passes agree

The first pass adds up sizes of instructions that do not exist yet, and the second pass makes
them. `Agreement` lists what the result owes to both: its instructions keep the commands of the
first pass one by one, its bytes are as many as were counted, and the offset of every label is
the size of what was asked for before the label, so that walking there gives what was asked for
behind it.

`Assembly.agreement_of_program` states it for every program that the assembler returns.
-/

set_option autoImplicit false

namespace EvmAssembler

/-- The program is what the first pass has laid out for the script. -/
structure Agreement (script : Script) (l : Layout) (p : Program) : Prop where
  /-- The first pass has placed what the script asks for. -/
  placements : l.placements = script.commands
  /-- There is one instruction for each command, in order. A reference has become a push of its
  width that stands for the offset of its label. -/
  kept : List.Forall₂ (Kept l.labels) l.placements p
  encodable : p.Encodable
  /-- The bytes of the program are as many as the first pass has counted. -/
  measured : ∃ bytes, p.code = .ok bytes ∧ p.size = .ok bytes.length ∧ bytes.length = l.offset
  /-- The offset of a label splits the program where its definition splits the commands. -/
  located : ∀ (before : Script) (space name : String) (after : Script),
    script = before ++ ⟨space, .label name⟩ :: after →
      ∃ offset : Nat, l.labels.lookup (Layout.qualified space name) = some offset ∧
        Program.size (p.take before.commands.length) = .ok offset ∧
        p.dropBytes offset = .ok (p.drop before.commands.length)
  /-- Every label that is referred to is one that the script defines. -/
  referenced : ∀ width label, .reference width label ∈ l.placements →
    ∃ space name, ⟨space, .label name⟩ ∈ script ∧ label = Layout.qualified space name

section
variable {labels : List (String × Nat)} {cs : List Placement} {p : Program}

/-- Kept commands have the extent that was counted for them. -/
theorem extent_of_kept (h : List.Forall₂ (Kept labels) cs p) :
    p.extent = (cs.map Placement.extent).sum := by
  induction h with
  | nil => rfl
  | cons hi _ ih => rw [Program.extent_cons, hi.extent_eq, ih, List.map_cons, List.sum_cons]

/-- What keeps sound commands has bytes, and no annotations. -/
theorem sound_of_kept (h : List.Forall₂ (Kept labels) cs p) (hcs : ∀ c ∈ cs, c.IsSound) :
    p.Encodable ∧ ∀ i ∈ p, i.isAssertion = false := by
  induction h with
  | nil =>
    constructor
    · intro i hi
      cases hi
    · intro i hi
      cases hi
  | @cons c i cs p hi _ ih =>
    obtain ⟨hencodable, hnote⟩ := hi.sound (hcs c List.mem_cons_self)
    obtain ⟨hrest, hnotes⟩ := ih fun d hd => hcs d (List.mem_cons_of_mem c hd)
    refine ⟨Program.encodable_cons.mpr ⟨hencodable, hrest⟩, fun j hj => ?_⟩
    rcases List.mem_cons.mp hj with rfl | hj
    · exact hnote
    · exact hnotes j hj

end

/-- In a clean script, the offset of a label is the extent of what stands before its
definition. -/
theorem Script.IsClean.lookup_label {before after : Script} {space name : String}
    (h : Script.IsClean (before ++ ⟨space, .label name⟩ :: after)) :
    (Script.definitions (before ++ ⟨space, .label name⟩ :: after)).lookup
      (Layout.qualified space name) = some before.extent := by
  have hfault := h before ⟨space, .label name⟩ after rfl
  have hnew := Scoped.fault?_label_eq_none_iff.mp hfault
  have hnone : before.definitions.lookup (Layout.qualified space name) = none := by
    rw [List.lookup_eq_none_iff]
    intro d hd
    rw [bne_iff_ne]
    intro heq
    exact hnew (List.mem_map.mpr ⟨d, hd, heq.symm⟩)
  rw [Script.definitions_append, List.lookup_append, hnone, Script.definitionsFrom,
    List.lookup_cons, beq_self_eq_true]
  rfl

/-- A layout of a clean script agrees with the program that keeps its commands. -/
theorem Laid.agreement {script : Script} {l : Layout} {p : Program} (h : Laid script l)
    (hclean : script.IsClean) (hkept : List.Forall₂ (Kept script.definitions) script.commands p) :
    Agreement script l p := by
  have hlabels : ∀ c i, Kept script.definitions c i → Kept l.labels c i := by
    intro c i hi
    cases hi with
    | instruction => exact .instruction i
    | reference hlookup hlen => exact .reference ((h.lookup_eq hclean _).trans hlookup) hlen
  obtain ⟨hencodable, hnotes⟩ := sound_of_kept hkept h.sound
  refine ⟨h.placements, ?_, hencodable, ?_, ?_, ?_⟩
  · rw [h.placements]
    exact hkept.imp hlabels
  · obtain ⟨bytes, hbytes⟩ := Program.encodable_iff_exists_code.mp hencodable
    have hlength := Program.length_code hbytes
    refine ⟨bytes, hbytes, ?_, ?_⟩
    · rw [hlength, Program.size_eq_extent hencodable]
    · rw [hlength, h.offset, extent_of_kept hkept]
      rfl
  · rintro before space name after rfl
    -- The commands before the definition are those that the first instructions keep.
    have hfirst : List.Forall₂ (Kept (Script.definitions (before ++ ⟨space, .label name⟩ :: after)))
        before.commands (p.take before.commands.length) := by
      have htake := List.forall₂_take before.commands.length hkept
      rwa [Script.commands_append, List.take_left] at htake
    have hextent : Program.extent (p.take before.commands.length) = before.extent :=
      extent_of_kept hfirst
    have hsub : p.take before.commands.length ⊆ p := (List.take_prefix _ p).subset
    refine ⟨before.extent, ?_, ?_, ?_⟩
    · rw [h.lookup_eq hclean, hclean.lookup_label]
    · rw [Program.size_eq_extent (hencodable.of_subset hsub), hextent]
    · have hdrop := @Program.dropBytes_append _ (p.drop before.commands.length)
        (hencodable.of_subset hsub) fun i hi => hnotes i (hsub hi)
      rwa [List.take_append_drop, hextent] at hdrop
  · intro width label hmem
    rw [h.placements] at hmem
    obtain ⟨i, hi⟩ := exists_forall₂_iff.mp ⟨p, hkept⟩ _ hmem
    cases hi with
    | reference hlookup _ =>
      refine Script.mem_labels_iff.mp ?_
      obtain ⟨d₁, d₂, hsplit, -⟩ := List.lookup_eq_some_iff.mp hlookup
      rw [Script.labels, hsplit]
      simp

namespace Assembly

/-- The two passes agree on every program that units assemble to. -/
theorem agreement_of_program {units : List SourceUnit} {p : Program}
    (h : program units = .ok p) :
    ∃ script l, Script.ofUnits units = .ok script ∧ layOutAll .empty units = (l, none) ∧
      Agreement script l p := by
  have hdone : ∃ l, layOutAll .empty units = (l, none) := by
    rw [program, ofUnits] at h
    split at h
    · exact ⟨_, by assumption⟩
    · cases h
  obtain ⟨l, hl⟩ := hdone
  obtain ⟨script, hscript⟩ := exists_script hl
  obtain ⟨hclean, hkept⟩ := (program_eq_ok_iff hscript).mp h
  obtain ⟨l', hl', hlaid⟩ := exists_laid hscript hclean
  obtain rfl : l' = l := congrArg Prod.fst (hl'.symm.trans hl)
  exact ⟨script, l', hscript, hl', hlaid.agreement hclean hkept⟩

/-- Two units that refer to each other's labels, one of them before it is defined. -/
def crossing : List SourceUnit :=
  [⟨"main", none, "top: push &lib::done\njump"⟩,
    ⟨"lib", none, "done: jumpdest\npush1 &main::top\njump"⟩]

/-- The label `lib::done` is defined behind the push that refers to it, and `main::top` in front.
Both pushes get the offsets of the definitions. -/
theorem agreement_of_crossing :
    ∃ p script l, program crossing = .ok p ∧
      p.code = .ok [0x61, 0x00, 0x04, 0x56, 0x5B, 0x60, 0x00, 0x56] ∧
      Script.ofUnits crossing = .ok script ∧ layOutAll .empty crossing = (l, none) ∧
      Agreement script l p := by
  have hcode : (code crossing).toOption =
      some [0x61, 0x00, 0x04, 0x56, 0x5B, 0x60, 0x00, 0x56] := by decide +kernel
  obtain ⟨p, hp, hbytes⟩ := except_bind_eq_ok_iff.mp (eq_ok_of_toOption hcode)
  obtain ⟨script, l, hscript, hl, hagree⟩ := agreement_of_program hp
  exact ⟨p, script, l, hp, hbytes, hscript, hl, hagree⟩

end Assembly

end EvmAssembler
