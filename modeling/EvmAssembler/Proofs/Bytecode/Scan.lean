import EvmAssembler.Bytecode.Scan
import EvmAssembler.Proofs.Encoding

/-!
# `EvmAssembler.Proofs.Bytecode.Scan`: a scan of a program's bytes

`Bytecode.scanFrom` sees bytes and nothing else. Over the bytes of a program it nevertheless
makes one step for each instruction that is not an annotation, at the instruction's offset
and with its immediate: `scanFrom_code`. `Program.stepsFrom` is that list, read off the
program.

The bytes have to be honest about their widths for this. An `unknown` instruction may stand
for any byte, and one that stands for a push opcode makes the scan skip what follows it.
`Program.HidesNoPush` rules that out. Every other shape has an opcode whose announced width
is the length of its immediate (`immediateWidth_of_encodes`).

The first section is about the scan of arbitrary bytes: where its positions lie, and that no
position lies inside an immediate.
-/

set_option autoImplicit false

namespace EvmAssembler

namespace Bytecode

/-! ### Positions of a scan -/

/-- A scan stays within the bytes. -/
theorem position_of_mem_scanFrom {position : Nat} {bytes : List UInt8} {s : Step}
    (h : s ∈ scanFrom position bytes) :
    position ≤ s.position ∧ s.position < position + bytes.length := by
  fun_induction scanFrom position bytes with
  | case1 => cases h
  | case2 position opcode rest width ih =>
    simp only [List.length_cons]
    rcases List.mem_cons.mp h with rfl | h
    · exact ⟨Nat.le_refl _, by dsimp only; omega⟩
    · have := ih h
      simp only [List.length_drop] at this
      omega

/-- Two steps of one scan do not overlap: the later one stands behind the immediate of the
earlier one. -/
theorem position_le_or_lt_of_mem_scanFrom {position : Nat} {bytes : List UInt8} {s t : Step}
    (hs : s ∈ scanFrom position bytes) (ht : t ∈ scanFrom position bytes) :
    t.position ≤ s.position ∨ s.position + s.immediate.length < t.position := by
  fun_induction scanFrom position bytes with
  | case1 => cases hs
  | case2 position opcode rest width ih =>
    -- If one of the two is the first step, the other starts behind its immediate.
    rcases List.mem_cons.mp ht with rfl | ht
    · rcases List.mem_cons.mp hs with rfl | hs
      · exact Or.inl (Nat.le_refl _)
      · have := position_of_mem_scanFrom hs
        left
        dsimp only
        omega
    · rcases List.mem_cons.mp hs with rfl | hs
      · have := position_of_mem_scanFrom ht
        right
        simp only [List.length_take]
        omega
      · exact ih hs ht

/-- A push opcode and its full immediate are passed in one step. -/
theorem scanFrom_append {position : Nat} {opcode : UInt8} {immediate rest : List UInt8}
    (h : immediateWidth opcode = immediate.length) :
    scanFrom position (opcode :: immediate ++ rest) =
      ⟨position, opcode, immediate⟩ :: scanFrom (position + 1 + immediate.length) rest := by
  rw [List.cons_append, scanFrom, h, List.take_left, List.drop_left]

end Bytecode

/-! ### Opcodes announce their immediates -/

namespace Instruction

open Bytecode (immediateWidth)

/-- The instruction is not an unknown byte that reads as a push opcode. -/
def HidesNoPush (i : Instruction) : Prop :=
  ∀ b, i = .unknown b → ¬(0x60 ≤ b ∧ b ≤ 0x7F)

/-- Fixed opcodes announce nothing. -/
theorem immediateWidth_code (op : Opcode) : immediateWidth op.code = 0 := by
  cases op <;> rfl

/-- Nor do opcodes with a stack index, which stand above the base of `DUP` or of `SWAP`. -/
theorem immediateWidth_indexed {base : UInt8} (hbase : base ∈ [dupBase, swapBase]) {n : Nat}
    (h1 : 1 ≤ n) (h2 : n ≤ maxStackIndex) : immediateWidth (base + UInt8.ofNat n) = 0 := by
  have hall : ∀ b ∈ [dupBase, swapBase], ∀ k : Fin 17, 1 ≤ k.val →
      immediateWidth (b + UInt8.ofNat k.val) = 0 := by decide +kernel
  exact hall base hbase ⟨n, Nat.lt_succ_of_le h2⟩ h1

/-- A push opcode announces as many bytes as it was made for. -/
theorem immediateWidth_push {n : Nat} (h1 : 1 ≤ n) (h2 : n ≤ maxPushBytes) :
    immediateWidth (pushBase + UInt8.ofNat n) = n := by
  have hall : ∀ k : Fin 33, 1 ≤ k.val →
      immediateWidth (pushBase + UInt8.ofNat k.val) = k.val := by decide
  exact hall ⟨n, Nat.lt_succ_of_le h2⟩ h1

/-- The opcode of an instruction announces the immediate that follows it. -/
theorem immediateWidth_of_encodes {i : Instruction} {opcode : UInt8} {immediate : List UInt8}
    (h : Encodes i (opcode :: immediate)) (hidden : i.HidesNoPush) :
    immediateWidth opcode = immediate.length := by
  cases h with
  | unknown => exact if_neg (hidden _ rfl)
  | fixed op => exact immediateWidth_code op
  | dup h1 h2 => exact immediateWidth_indexed (by simp) h1 h2
  | swap h1 h2 => exact immediateWidth_indexed (by simp) h1 h2
  | push h1 h2 => exact immediateWidth_push h1 h2

end Instruction

/-! ### The scan of a program -/

namespace Program

open Bytecode (Step)

/-- No unknown byte of the program reads as a push opcode. -/
def HidesNoPush (p : Program) : Prop :=
  ∀ i ∈ p, i.HidesNoPush

/-- The step a scan makes for an instruction at a position; an annotation has none. -/
def stepAt (position : Nat) (i : Instruction) : List Step :=
  match i.encode with
  | .ok (opcode :: immediate) => [⟨position, opcode, immediate⟩]
  | _ => []

/-- The steps a scan makes for a program that starts at a position. -/
def stepsFrom (position : Nat) : Program → List Step
  | [] => []
  | i :: rest => stepAt position i ++ stepsFrom (position + i.extent) rest

/-- Over the bytes of a program, the scan makes the program's steps. -/
theorem scanFrom_code {p : Program} {bytes : List UInt8} (position : Nat)
    (hcode : p.code = .ok bytes) (hidden : p.HidesNoPush) :
    Bytecode.scanFrom position bytes = stepsFrom position p := by
  induction p generalizing position bytes with
  | nil =>
    obtain rfl := Except.ok.inj hcode
    rw [Bytecode.scanFrom, stepsFrom]
  | cons i p ih =>
    obtain ⟨own, rest, hown, hrest, rfl⟩ := code_cons_eq_ok_iff.mp hcode
    have hlater := ih (position + i.extent) hrest fun j hj => hidden j (List.mem_cons_of_mem _ hj)
    have hlength := (Instruction.Encodes.of_encode hown).length_eq
    rw [stepsFrom, ← hlater, stepAt, hown, ← hlength]
    cases own with
    | nil =>
      -- An annotation: no step, and the position stays.
      rfl
    | cons opcode immediate =>
      have hwidth := Instruction.immediateWidth_of_encodes (Instruction.Encodes.of_encode hown)
        (hidden i List.mem_cons_self)
      rw [Bytecode.scanFrom_append hwidth, List.length_cons, Nat.add_assoc,
        Nat.add_comm 1 immediate.length]
      rfl

/-- Each step of a program belongs to an instruction, and its position counts the bytes
before that. -/
theorem mem_stepsFrom_iff {p : Program} {position : Nat} {s : Step} :
    s ∈ stepsFrom position p ↔
      ∃ (q : Program) (i : Instruction) (r : Program), p = q ++ i :: r ∧
        i.encode = .ok (s.opcode :: s.immediate) ∧ s.position = position + q.extent := by
  -- A step determines the bytes of its instruction, because it shows all of them.
  have hstep : ∀ {k : Nat} {i : Instruction}, s ∈ stepAt k i ↔
      i.encode = .ok (s.opcode :: s.immediate) ∧ s.position = k := by
    intro k i
    unfold stepAt
    split
    · rename_i opcode immediate henc
      rw [List.mem_singleton, henc]
      constructor
      · rintro rfl
        exact ⟨rfl, rfl⟩
      · rintro ⟨h, rfl⟩
        obtain ⟨rfl, rfl⟩ := List.cons.inj (Except.ok.inj h)
        rfl
    · rename_i hnone
      constructor
      · intro h
        cases h
      · rintro ⟨h, -⟩
        exact absurd h (hnone _ _)
  induction p generalizing position with
  | nil => simp [stepsFrom]
  | cons i p ih =>
    rw [stepsFrom, List.mem_append, hstep]
    constructor
    · rintro (⟨henc, hpos⟩ | h)
      · exact ⟨[], i, p, rfl, henc, hpos⟩
      · obtain ⟨q, j, r, rfl, henc, hpos⟩ := ih.mp h
        exact ⟨i :: q, j, r, rfl, henc, by rw [hpos, extent_cons, Nat.add_assoc]⟩
    · rintro ⟨q, j, r, hp, henc, hpos⟩
      cases q with
      | nil =>
        obtain ⟨rfl, rfl⟩ := List.cons.inj hp
        exact Or.inl ⟨henc, hpos⟩
      | cons k q =>
        obtain ⟨rfl, rfl⟩ := List.cons.inj hp
        exact Or.inr (ih.mpr ⟨q, j, r, rfl, henc, by rw [hpos, extent_cons, Nat.add_assoc]⟩)

end Program

end EvmAssembler
