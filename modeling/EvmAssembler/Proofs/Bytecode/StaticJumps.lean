import EvmAssembler.Proofs.Bytecode.JumpDestinations
import EvmAssembler.Proofs.Jumps

/-!
# `EvmAssembler.Proofs.Bytecode.StaticJumps`: known jump targets, by instruction and by byte

`Program.staticJumps` goes over instructions and carries what the last push has pushed.
`Bytecode.staticJumps` knows of no instructions: it scans the bytes and looks at two neighbouring
steps at a time. `staticJumps_eq_scan` says that they find the same jumps with the same targets,
and that the jumps whose target is no destination are the same too.

The simulation is `jumpsAfter_rowsFrom`: what is carried over the rows of a program is the
immediate of the step before. One instruction makes one step, which is a push or a jump when the
instruction is one (`pushed?_of_encodes`, `isJump_of_encodes`), and an annotation makes none.

As with jump destinations, only an unknown byte can deceive the scan. `HidesNoJump` excludes the
bytes of the two jumps, of the jump destination and of the pushes.
-/

set_option autoImplicit false

namespace EvmAssembler

/-! ### One step at a time -/

/-- The number a step pushes. -/
def Bytecode.Step.pushed? (s : Step) : Option Nat :=
  if s.isPush then some (Immediate.toNat s.immediate) else none

namespace Bytecode

/-- The first of two neighbouring steps says where the second one jumps to, if it jumps. -/
theorem jumpsAmong_cons_cons (a b : Step) (rest : List Step) :
    jumpsAmong (a :: b :: rest) =
      ((if b.isJump then a.pushed? else none).map (b.position, ·)).toList
        ++ jumpsAmong (b :: rest) := by
  rw [jumpsAmong, Step.pushed?]
  cases a.isPush <;> cases b.isJump <;> rfl

/-- In front of a program, a step that pushes nothing is no step at all. -/
theorem jumpsAmong_cons_of_pushed?_eq_none {s : Step} (h : s.pushed? = none) (steps : List Step) :
    jumpsAmong (s :: steps) = jumpsAmong steps := by
  cases steps with
  | nil => rfl
  | cons b rest => simp [jumpsAmong_cons_cons, h]

end Bytecode

namespace Instruction

open Bytecode (Step)

/-- The opcode bytes of the two jumps. -/
theorem isJump_ofOpcode_iff (op : Opcode) :
    (ofOpcode op).isJump = (op.code == 0x56 || op.code == 0x57) := by
  cases op <;> rfl

/-- No index and no width, added to its base, makes the opcode byte of a jump. -/
theorem ne_jump_of_base {base : UInt8} (hbase : base ∈ [dupBase, swapBase, pushBase]) {n : Nat}
    (h : n ≤ maxPushBytes) :
    (base + UInt8.ofNat n == 0x56 || base + UInt8.ofNat n == 0x57) = false := by
  have hall : ∀ b ∈ [dupBase, swapBase, pushBase], ∀ k : Fin 33,
      (b + UInt8.ofNat k == 0x56 || b + UInt8.ofNat k == 0x57) = false := by decide +kernel
  exact hall base hbase ⟨n, Nat.lt_succ_of_le h⟩

/-- The step of an instruction jumps when the instruction does, unless that is an unknown byte in
disguise. -/
theorem isJump_of_encodes {i : Instruction} {position : Nat} {opcode : UInt8}
    {immediate : List UInt8} (h : Encodes i (opcode :: immediate))
    (hidden : ∀ b, i = .unknown b → b ≠ 0x56 ∧ b ≠ 0x57) :
    (Step.mk position opcode immediate).isJump = i.isJump := by
  show (opcode == 0x56 || opcode == 0x57) = i.isJump
  cases h with
  | unknown =>
    obtain ⟨h56, h57⟩ := hidden opcode rfl
    simp [h56, h57, isJump]
  | fixed op => exact (isJump_ofOpcode_iff op).symm
  | dup _ most => exact ne_jump_of_base (by simp) (Nat.le_trans most (by decide))
  | swap _ most => exact ne_jump_of_base (by simp) (Nat.le_trans most (by decide))
  | push _ most => exact ne_jump_of_base (by simp) most

/-- The step of an instruction pushes what the instruction pushes. -/
theorem pushed?_of_encodes {i : Instruction} {position : Nat} {opcode : UInt8}
    {immediate : List UInt8} (h : Encodes i (opcode :: immediate)) (hidden : i.HidesNoPush) :
    (Step.mk position opcode immediate).pushed? = i.pushed? := by
  -- An opcode announces exactly the immediate that stands behind it, so the step is a push
  -- when there is one.
  have hwidth := immediateWidth_of_encodes h hidden
  show (if decide (Bytecode.immediateWidth opcode ≠ 0) then some (Immediate.toNat immediate)
    else none) = _
  rw [hwidth]
  cases h with
  | @push _ least most =>
    have hne : immediate ≠ [] := List.length_pos_iff.mp least
    simp [hne, pushed?]
  | _ => rfl

end Instruction

/-! ### Whole programs -/

namespace Program

open Bytecode (Step)

/-- No unknown byte of the program reads as a jump, as a jump destination or as a push. -/
def HidesNoJump (p : Program) : Prop :=
  ∀ b, .unknown b ∈ p → b ≠ 0x56 ∧ b ≠ 0x57 ∧ b ≠ 0x5B ∧ ¬(0x60 ≤ b ∧ b ≤ 0x7F)

/-- Such a program hides no destination in particular. -/
theorem HidesNoJump.hidesNoDestination {p : Program} (h : p.HidesNoJump) :
    p.HidesNoDestination :=
  fun b hb => (h b hb).2.2

/-- Over the rows of a program, the number in hand is always the one that the step before has
pushed. -/
theorem jumpsAfter_rowsFrom {p : Program} (h : p.Encodable) (hidden : p.HidesNoJump)
    (before : Step) (position : Nat) :
    jumpsAfter before.pushed? (p.rowsFrom position) =
      Bytecode.jumpsAmong (before :: stepsFrom position p) := by
  induction p generalizing before position with
  | nil => rfl
  | cons i p ih =>
    obtain ⟨⟨bytes, hbytes⟩, hp⟩ := encodable_cons.mp h
    have hlater := ih hp fun b hb => hidden b (List.mem_cons_of_mem i hb)
    have hencodes := Instruction.Encodes.of_encode hbytes
    rw [rowsFrom_cons, stepsFrom, stepAt, hbytes]
    cases bytes with
    | nil =>
      -- No bytes, so an annotation: neither side takes notice of it.
      have hnote := isAssertion_of_extent_eq_zero hencodes.length_eq.symm
      rw [jumpsAfter_of_isAssertion hnote]
      exact hlater before _
    | cons opcode immediate =>
      have hnote : i.isAssertion = false := by
        cases hi : i.isAssertion with
        | false => rfl
        | true =>
          have hlength := hencodes.length_eq
          rw [(encodable_of_isAssertion hi).2] at hlength
          cases hlength
      have hjump := @Instruction.isJump_of_encodes i position opcode immediate hencodes fun b hb =>
        ⟨(hidden b (hb ▸ List.mem_cons_self)).1, (hidden b (hb ▸ List.mem_cons_self)).2.1⟩
      have hpushed := @Instruction.pushed?_of_encodes i position opcode immediate hencodes
        fun b hb => (hidden b (hb ▸ List.mem_cons_self)).2.2.2
      rw [jumpsAfter_cons hnote, ← hjump, ← hpushed, hlater]
      exact (Bytecode.jumpsAmong_cons_cons before ⟨position, opcode, immediate⟩ _).symm

/-- The jump check and the scan of the bytes agree: on the jumps with a known target, in order,
with their positions and targets, and on those among them whose target is no jump destination. So
the check finds nothing exactly when every such jump in the bytes leads to a destination. -/
theorem staticJumps_eq_scan {p : Program} {bytes : List UInt8} (hcode : p.code = .ok bytes)
    (hidden : p.HidesNoJump) :
    p.staticJumps = .ok (Bytecode.staticJumps bytes) ∧
      p.badJumps = .ok (Bytecode.badJumps bytes) ∧
      (p.badJumps = .ok [] ↔
        ∀ jump ∈ Bytecode.staticJumps bytes, jump.2 ∈ Bytecode.jumpDestinations bytes) := by
  have hencodable : p.Encodable := encodable_iff_exists_code.mpr ⟨bytes, hcode⟩
  have hjumps : jumpsAfter none (p.rowsFrom 0) = Bytecode.staticJumps bytes := by
    -- In front of the program stands nothing, which is like a step that pushes nothing.
    have h := jumpsAfter_rowsFrom hencodable hidden ⟨0, 0x00, []⟩ 0
    rw [Bytecode.jumpsAmong_cons_of_pushed?_eq_none rfl] at h
    rw [Bytecode.staticJumps, Bytecode.scan,
      scanFrom_code 0 hcode hidden.hidesNoDestination.hidesNoPush]
    exact h
  have hbad : p.badJumps = .ok (Bytecode.badJumps bytes) := by
    rw [badJumps_eq hencodable (Bytecode.jumpDestinations bytes).contains, hjumps]
    · rfl
    · intro n
      rw [List.contains_iff_mem, mem_jumpDestinations_iff hcode hidden.hidesNoDestination]
      rfl
  refine ⟨by rw [staticJumps_eq hencodable, hjumps], hbad, ?_⟩
  rw [hbad, Except.ok.injEq, Bytecode.badJumps, List.filter_eq_nil_iff]
  simp

/-- A jump whose target is a destination, one whose target lies in an immediate, and one that does
not stand right behind its push. Annotations stand wherever they can. -/
def crossroads : Program :=
  [.assertion (.const 0 "entry" (.bool true)), .push [0x05], .assertion (.const 1 "known" .null),
    .ofOpcode .JUMP, .push [0x5B], .jumpdest, .push [0x00, 0x04],
    .assertion (.const 2 "astray" .null), .ofOpcode .JUMPI, .push [0x05], .ofOpcode .POP,
    .ofOpcode .JUMP, .unknown 0xFE]

/-- The first jump is good. The second has its target inside an immediate, and it is bad. The third
has no known target, since an instruction stands between it and the push. -/
theorem staticJumps_crossroads :
    crossroads.code = .ok [0x60, 0x05, 0x56, 0x60, 0x5B, 0x5B, 0x61, 0x00, 0x04, 0x57, 0x60, 0x05,
        0x50, 0x56, 0xFE] ∧
      crossroads.HidesNoJump ∧ crossroads.staticJumps = .ok [(2, 5), (9, 4)] ∧
      crossroads.badJumps = .ok [(9, 4)] := by
  have hcode : crossroads.code = .ok [0x60, 0x05, 0x56, 0x60, 0x5B, 0x5B, 0x61, 0x00, 0x04, 0x57,
      0x60, 0x05, 0x50, 0x56, 0xFE] := rfl
  have hidden : crossroads.HidesNoJump := by
    intro b hb
    obtain rfl : b = 0xFE := by
      simpa [crossroads, Instruction.jumpdest, Instruction.ofOpcode] using hb
    decide
  have hscan : Bytecode.scan [0x60, 0x05, 0x56, 0x60, 0x5B, 0x5B, 0x61, 0x00, 0x04, 0x57, 0x60,
      0x05, 0x50, 0x56, 0xFE] =
      [⟨0, 0x60, [0x05]⟩, ⟨2, 0x56, []⟩, ⟨3, 0x60, [0x5B]⟩, ⟨5, 0x5B, []⟩,
        ⟨6, 0x61, [0x00, 0x04]⟩, ⟨9, 0x57, []⟩, ⟨10, 0x60, [0x05]⟩, ⟨12, 0x50, []⟩,
        ⟨13, 0x56, []⟩, ⟨14, 0xFE, []⟩] := by
    simp [Bytecode.scan, Bytecode.scanFrom, Bytecode.immediateWidth]
  obtain ⟨hjumps, hbad, -⟩ := staticJumps_eq_scan hcode hidden
  refine ⟨hcode, hidden, ?_, ?_⟩
  · rw [hjumps, Bytecode.staticJumps, hscan]
    rfl
  · rw [hbad, Bytecode.badJumps, Bytecode.staticJumps, Bytecode.jumpDestinations, hscan]
    rfl

end Program

end EvmAssembler
