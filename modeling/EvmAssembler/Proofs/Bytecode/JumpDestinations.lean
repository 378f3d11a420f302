import EvmAssembler.Proofs.Bytecode.Scan
import EvmAssembler.Proofs.Navigation

/-!
# `EvmAssembler.Proofs.Bytecode.JumpDestinations`: jump destinations, by instruction and by byte

`Program.isJumpdest` looks for a jump destination among instructions. A machine looks for one
among bytes: it scans the code from the start, skips immediates, and accepts the positions it
reaches that hold `0x5B`. `isJumpdest_eq_mem_jumpDestinations` says that the two agree at every
offset.

Both sides are brought to the same form, a split of the program around a jump destination:
`isJumpdest_eq_true_iff` does it for the navigator and `mem_jumpDestinations_iff` for the
scan. What is left for the main theorem is that the navigator always answers.

The bytes of an unknown instruction are the only ones that can deceive: `0x5B` would be a
destination to the machine alone, and a push opcode would hide what follows it. The theorem
excludes these bytes and no others.
-/

set_option autoImplicit false

namespace EvmAssembler

namespace Instruction

/-- No index and no width, added to its base, makes the opcode byte of a jump destination. -/
theorem ne_jumpdest_of_base {base : UInt8} (hbase : base ∈ [dupBase, swapBase, pushBase]) {n : Nat}
    (h : n ≤ maxPushBytes) : 0x5B ≠ base + UInt8.ofNat n := by
  have hall : ∀ b ∈ [dupBase, swapBase, pushBase], ∀ k : Fin 33,
      0x5B ≠ b + UInt8.ofNat k.val := by decide +kernel
  exact hall base hbase ⟨n, Nat.lt_succ_of_le h⟩

/-- Among the opcode bytes of instructions that are not unknown, only that of the jump
destination is `0x5B`. -/
theorem eq_jumpdest_of_encodes {i : Instruction} {immediate : List UInt8}
    (h : Encodes i (0x5B :: immediate)) (hunknown : i ≠ .unknown 0x5B) : i = .jumpdest := by
  generalize hbytes : (0x5B :: immediate : List UInt8) = bytes at h
  cases h with
  | assertion p => cases hbytes
  | unknown b =>
    obtain ⟨rfl, -⟩ := List.cons.inj hbytes
    exact absurd rfl hunknown
  | fixed op =>
    have hcode : Opcode.JUMPDEST.code = op.code := (List.cons.inj hbytes).1
    rw [← Opcode.code_injective hcode]
    rfl
  -- The other opcodes come from a base and an index or a width.
  | dup _ most =>
    refine absurd (List.cons.inj hbytes).1 (ne_jumpdest_of_base (by simp) ?_)
    exact Nat.le_trans most (by decide)
  | swap _ most =>
    refine absurd (List.cons.inj hbytes).1 (ne_jumpdest_of_base (by simp) ?_)
    exact Nat.le_trans most (by decide)
  | push _ most => exact absurd (List.cons.inj hbytes).1 (ne_jumpdest_of_base (by simp) most)

end Instruction

namespace Program

/-- No unknown byte of the program reads as a jump destination or as a push opcode. -/
def HidesNoDestination (p : Program) : Prop :=
  ∀ b, .unknown b ∈ p → b ≠ 0x5B ∧ ¬(0x60 ≤ b ∧ b ≤ 0x7F)

/-- Such a program hides no push in particular. -/
theorem HidesNoDestination.hidesNoPush {p : Program} (h : p.HidesNoDestination) :
    p.HidesNoPush := by
  rintro i hi b rfl
  exact (h b hi).2

/-- The scan of a program's bytes finds a destination at a position when a jump destination
stands there among the instructions. -/
theorem mem_jumpDestinations_iff {p : Program} {bytes : List UInt8} {n : Nat}
    (hcode : p.code = .ok bytes) (hidden : p.HidesNoDestination) :
    n ∈ Bytecode.jumpDestinations bytes ↔
      ∃ q r : Program, p = q ++ .jumpdest :: r ∧ q.extent = n := by
  unfold Bytecode.jumpDestinations Bytecode.scan
  rw [scanFrom_code 0 hcode hidden.hidesNoPush]
  simp only [List.mem_map, List.mem_filter, beq_iff_eq]
  constructor
  · rintro ⟨s, ⟨hs, hopcode⟩, rfl⟩
    obtain ⟨q, i, r, rfl, henc, hpos⟩ := mem_stepsFrom_iff.mp hs
    -- The scan sees an opcode only, and only one instruction shows this one honestly.
    rw [hopcode] at henc
    have hi : i = .jumpdest := by
      refine Instruction.eq_jumpdest_of_encodes (Instruction.Encodes.of_encode henc) ?_
      rintro rfl
      exact (hidden 0x5B (List.mem_append_right _ List.mem_cons_self)).1 rfl
    exact ⟨q, r, by rw [hi], by omega⟩
  · rintro ⟨q, r, rfl, rfl⟩
    refine ⟨⟨q.extent, 0x5B, []⟩, ⟨?_, rfl⟩, rfl⟩
    exact mem_stepsFrom_iff.mpr ⟨q, .jumpdest, r, rfl, rfl, (Nat.zero_add _).symm⟩

/-- At every offset, the navigator and the scan of the bytes give the same answer about jump
destinations. In particular neither accepts a byte inside an immediate, nor an offset before
the start or behind the last byte.

The offset has to be short enough to be reported, because the navigator words a report of
the offset before it forgives it. -/
theorem isJumpdest_eq_mem_jumpDestinations {p : Program} {bytes : List UInt8} {o : Int}
    (hcode : p.code = .ok bytes) (hidden : p.HidesNoDestination)
    (ho : Text.hasDecimal o = true) :
    p.isJumpdest o = .ok (decide (0 ≤ o ∧ o.toNat ∈ Bytecode.jumpDestinations bytes)) ∧
      (∀ s ∈ Bytecode.scan bytes, s.position < o → o ≤ s.position + s.immediate.length →
        p.isJumpdest o = .ok false) ∧
      (o < 0 ∨ bytes.length ≤ o → p.isJumpdest o = .ok false) := by
  have hencodable : p.Encodable := encodable_iff_exists_code.mpr ⟨bytes, hcode⟩
  have hanswer : p.isJumpdest o =
      .ok (decide (0 ≤ o ∧ o.toNat ∈ Bytecode.jumpDestinations bytes)) := by
    obtain ⟨b, hb⟩ := isJumpdest_eq_ok ho fun i hi e he => by
      obtain ⟨own, hown⟩ := hencodable i hi
      rw [hown] at he
      cases he
    have hiff : b = true ↔ 0 ≤ o ∧ o.toNat ∈ Bytecode.jumpDestinations bytes := by
      have htrue : b = true ↔ p.isJumpdest o = .ok true := by
        rw [hb]
        simp
      rw [htrue, isJumpdest_eq_true_iff, mem_jumpDestinations_iff hcode hidden]
      refine and_congr_right fun hnonneg => ?_
      constructor
      · rintro ⟨q, r, hp, -, hext⟩
        exact ⟨q, r, hp, by omega⟩
      · rintro ⟨q, r, hp, hext⟩
        refine ⟨q, r, hp, hencodable.of_subset ?_, by omega⟩
        rw [hp]
        exact List.subset_append_left _ _
    rw [hb, Bool.eq_iff_iff.mpr (hiff.trans decide_eq_true_iff.symm)]
  -- An offset is rejected once the scan is known not to stop there.
  have hreject : o.toNat ∉ Bytecode.jumpDestinations bytes ∨ o < 0 →
      p.isJumpdest o = .ok false := by
    intro h
    rw [hanswer, decide_eq_false]
    rintro ⟨hnonneg, hmem⟩
    rcases h with hnot | hneg
    · exact hnot hmem
    · omega
  refine ⟨hanswer, fun s hs hafter hwithin => hreject ?_, fun h => hreject ?_⟩
  · left
    intro hmem
    obtain ⟨t, ht, hpos⟩ := List.mem_map.mp hmem
    have := Bytecode.position_le_or_lt_of_mem_scanFrom hs (List.mem_filter.mp ht).1
    omega
  · rcases h with hneg | hend
    · exact Or.inr hneg
    · left
      intro hmem
      obtain ⟨t, ht, hpos⟩ := List.mem_map.mp hmem
      have := Bytecode.position_of_mem_scanFrom (List.mem_filter.mp ht).1
      omega

/-- Two bytes of data that look like a destination, and a real one between annotations. -/
def disguised : Program :=
  [.assertion (.const 0 "entry" (.bool true)), .push [0x5B, 0x5B], .unknown 0xFE,
    .assertion (.const 1 "loop" (.bool true)), .jumpdest, .assertion (.const 2 "exit" .null)]

/-- The real destination is accepted and the data are not. -/
theorem isJumpdest_disguised :
    disguised.code = .ok [0x61, 0x5B, 0x5B, 0xFE, 0x5B] ∧ disguised.HidesNoDestination ∧
      Text.hasDecimal 4 = true ∧ Text.hasDecimal 2 = true ∧
      disguised.isJumpdest 4 = .ok true ∧ disguised.isJumpdest 2 = .ok false := by
  have hcode : disguised.code = .ok [0x61, 0x5B, 0x5B, 0xFE, 0x5B] := rfl
  have hidden : disguised.HidesNoDestination := by
    intro b hb
    obtain rfl : b = 0xFE := by
      simpa [disguised, Instruction.jumpdest, Instruction.ofOpcode] using hb
    decide
  have hfour : Text.hasDecimal 4 = true :=
    Text.hasDecimal_of_natAbs_lt (k := 1) (by decide) (by decide)
  have htwo : Text.hasDecimal 2 = true :=
    Text.hasDecimal_of_natAbs_lt (k := 1) (by decide) (by decide)
  have hscan : Bytecode.scan [0x61, 0x5B, 0x5B, 0xFE, 0x5B] =
      [⟨0, 0x61, [0x5B, 0x5B]⟩, ⟨3, 0xFE, []⟩, ⟨4, 0x5B, []⟩] := by
    simp [Bytecode.scan, Bytecode.scanFrom, Bytecode.immediateWidth]
  refine ⟨hcode, hidden, hfour, htwo, ?_, ?_⟩
  · rw [(isJumpdest_eq_mem_jumpDestinations hcode hidden hfour).1, Bytecode.jumpDestinations, hscan]
    rfl
  · refine (isJumpdest_eq_mem_jumpDestinations hcode hidden htwo).2.1 ⟨0, 0x61, [0x5B, 0x5B]⟩ ?_
      (by decide) (by decide)
    rw [hscan]
    exact List.mem_cons_self

end Program

end EvmAssembler
