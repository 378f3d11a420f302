import EvmAssembler.Opcode.Table
import EvmAssembler.Proofs.Bytecode.Scan

/-!
# `EvmAssembler.Proofs.Bytecode.Disassembly`: bytes are decodable in one way only

The bytes of a program are those of its instructions, one after another and with nothing in
between. `Bytecode.disassemble` takes them apart again: it scans them and reads an instruction off
every step. That an opcode byte alone decides the shape and the length of its instruction is what
makes this work. The opcodes of `PUSH`, `DUP` and `SWAP` are three ranges, and the ten families lie
outside of them and share no byte.

* `Step.instruction_of_encodes`: a step over the bytes of one instruction reads that instruction.
* `disassembleFrom_append`: behind the bytes of a program there may be any others, and the program
  is read all the same.
* `Program.isPrefix_of_code_isPrefix`: so the bytes of one program start those of another only where
  the one program starts the other, and programs with the same bytes are the same.

Two things leave no trace of their own in the bytes. An annotation has none, and an unknown byte
that the opcode table assigns reads as that opcode. `Program.IsTraceable` excludes both and nothing
else.
-/

set_option autoImplicit false

namespace EvmAssembler

/-! ### The opcode table -/

namespace CodeTable

/-- The byte is one that the table assigns. -/
def Assigns (t : CodeTable) (b : UInt8) : Prop :=
  ∃ entry ∈ t.entries, entry.2 = (b.toNat : Int)

/-- A range of opcodes assigns each of its bytes. -/
theorem exists_mem_rangeEntries (name : String) {base : UInt8} {count n : Nat}
    (h1 : base.toNat < n) (h2 : n ≤ base.toNat + count) :
    ∃ entry ∈ rangeEntries name base count, entry.2 = (n : Int) := by
  refine ⟨_, List.mem_map.mpr ⟨n - base.toNat - 1, List.mem_range.mpr (by omega), rfl⟩, ?_⟩
  show ((base.toNat + (n - base.toNat - 1) + 1 : Nat) : Int) = n
  omega

/-- The standard table assigns the byte of every fixed opcode. -/
theorem assigns_code (op : Opcode) : standard.Assigns op.code := by
  have hfamily : (op.name, (op.code.toNat : Int)) ∈ (ofFamily op.family).members := by
    refine List.mem_map.mpr ⟨op, List.mem_filter.mpr ⟨Opcode.mem_all op, ?_⟩, rfl⟩
    exact beq_self_eq_true _
  have hfamilies : ofFamily op.family ∈ standard.families :=
    List.mem_map_of_mem (Family.mem_all op.family)
  refine ⟨(op.name, (op.code.toNat : Int)), ?_, rfl⟩
  simp only [entries, List.append_assoc, List.mem_append]
  exact Or.inl (List.mem_flatMap.mpr ⟨_, hfamilies, hfamily⟩)

/-- The standard table assigns every byte of the three ranges, which follow one another. -/
theorem assigns_range {b : UInt8} (h1 : 0x60 ≤ b.toNat) (h2 : b.toNat ≤ 0x9F) :
    standard.Assigns b := by
  have hpush : pushBase.toNat = 0x5F := rfl
  have hdup : dupBase.toNat = 0x7F := rfl
  have hswap : swapBase.toNat = 0x8F := rfl
  have hentries : ∀ entry : String × Int,
      entry ∈ rangeEntries "DUP" dupBase maxStackIndex ∨
        entry ∈ rangeEntries "SWAP" swapBase maxStackIndex ∨
        entry ∈ rangeEntries "PUSH" pushBase maxPushBytes → entry ∈ standard.entries := by
    intro entry h
    simp only [entries, List.mem_append]
    tauto
  have hindex : maxStackIndex = 16 := rfl
  have hbytes : maxPushBytes = 32 := rfl
  rcases Nat.lt_or_ge 0x8F b.toNat with hswaps | hrest
  · obtain ⟨entry, hmem, hcode⟩ :=
      @exists_mem_rangeEntries "SWAP" swapBase maxStackIndex b.toNat (by omega) (by omega)
    exact ⟨entry, hentries entry (Or.inr (Or.inl hmem)), hcode⟩
  · rcases Nat.lt_or_ge 0x7F b.toNat with hdups | hpushes
    · obtain ⟨entry, hmem, hcode⟩ :=
        @exists_mem_rangeEntries "DUP" dupBase maxStackIndex b.toNat (by omega) (by omega)
      exact ⟨entry, hentries entry (Or.inl hmem), hcode⟩
    · obtain ⟨entry, hmem, hcode⟩ :=
        @exists_mem_rangeEntries "PUSH" pushBase maxPushBytes b.toNat (by omega) (by omega)
      exact ⟨entry, hentries entry (Or.inr (Or.inr hmem)), hcode⟩

end CodeTable

/-! ### Reading instructions off bytes -/

namespace Bytecode

/-- The instruction that an opcode byte and the immediate behind it stand for. A byte that is no
opcode stands for itself. -/
def Step.instruction (s : Step) : Instruction :=
  let n := s.opcode.toNat
  if 0x60 ≤ n ∧ n ≤ 0x7F then .push s.immediate
  else if 0x80 ≤ n ∧ n ≤ 0x8F then .dup (.int (n - 0x7F : Nat))
  else if 0x90 ≤ n ∧ n ≤ 0x9F then .swap (.int (n - 0x8F : Nat))
  else match Opcode.all.find? (·.code == s.opcode) with
    | some op => .ofOpcode op
    | none => .unknown s.opcode

/-- The program that bytes are read as from a position on. -/
def disassembleFrom (position : Nat) (bytes : List UInt8) : Program :=
  (scanFrom position bytes).map Step.instruction

/-- The program that bytes are read as. -/
def disassemble (bytes : List UInt8) : Program :=
  disassembleFrom 0 bytes

end Bytecode

/-- The byte of a fixed opcode lies outside the ranges of `PUSH`, `DUP` and `SWAP`. -/
theorem Opcode.code_lt_or_gt (op : Opcode) : op.code.toNat < 0x60 ∨ 0x9F < op.code.toNat := by
  cases op <;> decide

/-- A fixed opcode is found by its byte, which no other one has. -/
theorem Opcode.find?_code (op : Opcode) : all.find? (·.code == op.code) = some op := by
  cases op <;> rfl

namespace Instruction

open Bytecode (Step)

/-- Adding an index to the base of a range does not wrap around. -/
theorem toNat_base_add {base : UInt8} {n : Nat} (h : base.toNat + n < 256) :
    (base + UInt8.ofNat n).toNat = base.toNat + n := by
  rw [UInt8.toNat_add, UInt8.toNat_ofNat', Nat.add_mod_mod]
  exact Nat.mod_eq_of_lt h

/-- The bytes of an instruction are read as that instruction, unless they are an unknown byte that
the opcode table assigns. -/
theorem instruction_of_encodes {i : Instruction} {opcode : UInt8} {immediate : List UInt8}
    (h : Encodes i (opcode :: immediate))
    (hfree : ∀ b, i = .unknown b → ¬CodeTable.standard.Assigns b) (position : Nat) :
    (Step.mk position opcode immediate).instruction = i := by
  have hpush : pushBase.toNat = 0x5F := rfl
  have hdup : dupBase.toNat = 0x7F := rfl
  have hswap : swapBase.toNat = 0x8F := rfl
  have hindex : maxStackIndex = 16 := rfl
  have hbytes : maxPushBytes = 32 := rfl
  unfold Step.instruction
  -- By the constructor: each has its own range, and the byte is then compared with all of them.
  cases h with
  | unknown =>
    have hnone : Opcode.all.find? (·.code == opcode) = none := by
      rw [List.find?_eq_none]
      intro op _ hop
      rw [← beq_iff_eq.mp hop] at hfree
      exact hfree _ rfl (CodeTable.assigns_code op)
    have hrange : ¬(0x60 ≤ opcode.toNat ∧ opcode.toNat ≤ 0x9F) :=
      fun hrange => hfree _ rfl (CodeTable.assigns_range hrange.1 hrange.2)
    dsimp only
    rw [if_neg (by omega), if_neg (by omega), if_neg (by omega), hnone]
  | fixed op =>
    have hout := op.code_lt_or_gt
    dsimp only
    rw [if_neg (by omega), if_neg (by omega), if_neg (by omega), op.find?_code]
  | @dup n h1 h2 =>
    have hcode := @toNat_base_add dupBase n (by omega)
    dsimp only
    rw [if_neg (by omega), if_pos (by omega), hcode, hdup, Nat.add_sub_cancel_left]
  | @swap n h1 h2 =>
    have hcode := @toNat_base_add swapBase n (by omega)
    dsimp only
    rw [if_neg (by omega), if_neg (by omega), if_pos (by omega), hcode, hswap,
      Nat.add_sub_cancel_left]
  | push h1 h2 =>
    have hcode := @toNat_base_add pushBase immediate.length (by omega)
    dsimp only
    rw [if_pos (by omega)]

/-- What has bytes and is no annotation equals itself. -/
theorem same_self {i : Instruction} (hi : i.Encodable) (hnote : i.isAssertion = false) :
    i.same i = true := by
  obtain ⟨bytes, hbytes⟩ := hi
  cases Encodes.of_encode hbytes with
  | assertion p => cases hnote
  | unknown b => exact beq_self_eq_true b
  | fixed op =>
    show (op.family == op.family && op == op) = true
    simp
  | dup _ _ | swap _ _ =>
    simp [same, Datum.agrees, Datum.same, Datum.likeness?, Datum.quantity?, Likeness.same,
      Quantity.same]
  | push _ _ => exact beq_self_eq_true _

end Instruction

/-! ### Whole programs -/

namespace Program

open Bytecode (disassemble disassembleFrom)

/-- The program leaves a trace of each of its instructions in its bytes: it has no annotations, and
no unknown byte that is an opcode of the table. -/
structure IsTraceable (p : Program) : Prop where
  plain : ∀ i ∈ p, i.isAssertion = false
  free : ∀ b, .unknown b ∈ p → ¬CodeTable.standard.Assigns b

variable {p q : Program} {bytes more : List UInt8}

/-- In particular no unknown byte reads as a push. -/
theorem IsTraceable.hidesNoPush (h : p.IsTraceable) : p.HidesNoPush := by
  rintro i hi b rfl ⟨h1, h2⟩
  have hle : b.toNat ≤ 0x7F := h2
  exact h.free b hi (CodeTable.assigns_range h1 (by omega))

/-- The bytes of a program are read as that program, whatever follows them. -/
theorem disassembleFrom_append (position : Nat) (hp : p.IsTraceable) (hcode : p.code = .ok bytes) :
    disassembleFrom position (bytes ++ more) =
      p ++ disassembleFrom (position + bytes.length) more := by
  induction p generalizing position bytes with
  | nil =>
    obtain rfl := Except.ok.inj hcode
    rfl
  | cons i p ih =>
    obtain ⟨own, rest, hown, hrest, rfl⟩ := code_cons_eq_ok_iff.mp hcode
    have hencodes := Instruction.Encodes.of_encode hown
    have htail : IsTraceable p :=
      ⟨fun j hj => hp.plain j (List.mem_cons_of_mem i hj),
        fun b hb => hp.free b (List.mem_cons_of_mem i hb)⟩
    cases own with
    | nil =>
      -- Only an annotation has no bytes.
      have hpos := Instruction.extent_pos (hp.plain i List.mem_cons_self)
      rw [← hencodes.length_eq] at hpos
      cases hpos
    | cons opcode immediate =>
      have hwidth := Instruction.immediateWidth_of_encodes hencodes
        (hp.hidesNoPush i List.mem_cons_self)
      have hread := Instruction.instruction_of_encodes hencodes
        (fun b hb => hp.free b (hb ▸ List.mem_cons_self)) position
      have hlater := ih (position + 1 + immediate.length) htail hrest
      rw [disassembleFrom, List.append_assoc, Bytecode.scanFrom_append hwidth, List.map_cons, hread,
        List.cons_append]
      congr 1
      rw [List.length_append, List.length_cons]
      refine hlater.trans ?_
      congr 2
      omega

/-- Disassembling the bytes of a program gives the program back. -/
theorem disassemble_code (hp : p.IsTraceable) (hcode : p.code = .ok bytes) :
    disassemble bytes = p := by
  have h := @disassembleFrom_append p bytes [] 0 hp hcode
  rw [List.append_nil] at h
  rw [disassemble, h, disassembleFrom, Bytecode.scanFrom, List.map_nil, List.append_nil]

/-- Where the bytes of one program start those of another, the one program starts the other, and
programs with the same bytes have equal instructions position by position. -/
theorem isPrefix_of_code_isPrefix (hp : p.IsTraceable) (hq : q.IsTraceable)
    (hpcode : p.code = .ok bytes) (hqcode : q.code = .ok more) :
    (bytes <+: more → p <+: q) ∧
      (bytes = more → p.length = q.length ∧
        List.Forall₂ (fun i j => i = j ∧ i.same j = true) p q) := by
  constructor
  · rintro ⟨rest, rfl⟩
    -- The second program is what its bytes are read as, and these start with those of the first.
    have hread := disassemble_code hq hqcode
    rw [disassemble, disassembleFrom_append 0 hp hpcode] at hread
    exact ⟨_, hread⟩
  · rintro rfl
    obtain rfl : p = q := (disassemble_code hp hpcode).symm.trans (disassemble_code hq hqcode)
    have hencodable : p.Encodable := encodable_iff_exists_code.mpr ⟨bytes, hpcode⟩
    refine ⟨rfl, List.forall₂_same.mpr fun i hi => ⟨rfl, ?_⟩⟩
    exact Instruction.same_self (hencodable i hi) (hp.plain i hi)

/-- A program with opcodes in an immediate, and with a byte that the table leaves free. -/
def camouflaged : Program :=
  [.push [0x60, 0x5B], .dup (.int 1), .unknown 0xFE]

/-- The same with a jump destination behind it. -/
def camouflagedTarget : Program :=
  [.push [0x60, 0x5B], .dup (.int 1), .unknown 0xFE, .jumpdest]

/-- The opcodes within the immediate are part of it, and the free byte stands for itself. So the
bytes tell that the second program starts with the first. -/
theorem isPrefix_camouflaged :
    camouflaged.IsTraceable ∧ camouflagedTarget.IsTraceable ∧
      camouflaged.code = .ok [0x61, 0x60, 0x5B, 0x80, 0xFE] ∧
      camouflagedTarget.code = .ok [0x61, 0x60, 0x5B, 0x80, 0xFE, 0x5B] ∧
      camouflaged <+: camouflagedTarget ∧
      List.Forall₂ (fun i j => i = j ∧ i.same j = true) camouflaged camouflaged := by
  have hfree : ¬CodeTable.standard.Assigns 0xFE := by
    unfold CodeTable.Assigns
    decide +kernel
  have htarget : camouflagedTarget.IsTraceable := by
    constructor
    · simp [camouflagedTarget, Instruction.jumpdest, Instruction.ofOpcode, Instruction.isAssertion]
    · intro b hb
      obtain rfl : b = 0xFE := by
        simpa [camouflagedTarget, Instruction.jumpdest, Instruction.ofOpcode] using hb
      exact hfree
  have hsub : camouflaged ⊆ camouflagedTarget := List.subset_append_left _ [Instruction.jumpdest]
  have hfirst : camouflaged.IsTraceable :=
    ⟨fun i hi => htarget.plain i (hsub hi), fun b hb => htarget.free b (hsub hb)⟩
  have hcode : camouflaged.code = .ok [0x61, 0x60, 0x5B, 0x80, 0xFE] := rfl
  have hmore : camouflagedTarget.code = .ok [0x61, 0x60, 0x5B, 0x80, 0xFE, 0x5B] := rfl
  exact ⟨hfirst, htarget, hcode, hmore,
    (isPrefix_of_code_isPrefix hfirst htarget hcode hmore).1 (by decide),
    ((isPrefix_of_code_isPrefix hfirst hfirst hcode hcode).2 rfl).2⟩

end Program

end EvmAssembler
